import IdcuIot.Driver.IdcuSelectTag
import IdcuIot.Driver.Plcs.Fields

/-! # The PLCS drivers: what becomes of the values

The values of a frame become a text `NNN:value;…`, which `selectTag`, `selectTag_12` and
`selectTag_12ex` take apart again: the pieces between the semicolons go into the rows of a table,
and each row is taken apart at its colons into an id and a value.  `strtok` works in the table
itself, and the rows of PLCS_12ex are shorter than its longest pieces, so that a row may run on
into the next one.

`readRows_eq` reduces the work in memory to lists: what is read are the strings of the rows
(`read`), except that a row into which the delimiter of the row before has been written ends
there (`seen`). -/

namespace IdcuIot.Driver.Plcs

open Memory Tokens CString

/-- `sprintf( setString+stringOffset, "%03d:%s;", … )`. -/
def entry (t : Tag) : List UInt8 := bytesOf (Decimal.pad 3 t.id) ++ 0x3A :: (t.value ++ [0x3B])

/-- `setString`. -/
def setString (ts : List Tag) : List UInt8 := ts.flatMap entry

/-- `atoi`, stored in an `unsigned char`. -/
def atoi (s : List UInt8) : UInt8 :=
  UInt8.ofInt (Decimal.atoi (s.map (fun b => Char.ofNat b.toNat)))

/-- The bytes written to `data_buff`, and whether a `NULL` of `strtok` was used. -/
structure Written where
  bytes : List UInt8
  null : Bool
deriving DecidableEq

/-- The four bytes of `sensingTime`. -/
def utc (sensingTime : UInt32) : List UInt8 := (List.range 4).map (Words.byteAt sensingTime)

/-- What is written for a row with the given id and value. -/
def record (sensingTime : UInt32) (trid value : List UInt8) : List UInt8 :=
  [atoi trid, 0] ++ utc sensingTime ++ UInt8.ofNat (value.length + 1) :: (value ++ [0])

/-- The loop over the rows of the table, from row `i` on. -/
def readRows (w limit : ℕ) (sensingTime : UInt32) : ℕ → ℕ → Mem → Written
  | 0, _, _ => ⟨[], false⟩
  | n + 1, i, parsing =>
      let id := strtok 0x3A limit parsing (i * w)
      match id.token with
      | none => ⟨[], true⟩
      | some trid =>
          let value := strtok 0x3A limit id.mem id.next
          match value.token with
          | none => ⟨[atoi trid, 0] ++ utc sensingTime, true⟩
          | some text =>
              let rest := readRows w limit sensingTime n (i + 1) value.mem
              ⟨record sensingTime trid text ++ rest.bytes, rest.null⟩

/-- Bytes in a row of `parsing`. -/
def width : Plcs → ℕ
  | .plcs10 | .plcs12 => 256
  | .plcs12ex => 32

/-- Rows of `parsing`. -/
def height : Plcs → ℕ
  | .plcs10 | .plcs12 => 256
  | .plcs12ex => 1024

/-- The table `parsing` with the pieces of a text in its rows. -/
def pieceTable (d : Plcs) (parsing : Mem) (buffer : List UInt8) : Mem :=
  (copyRows d.width parsing 0 (tokens 0x3B buffer)).1

/-- `selectTag`, `selectTag_12`, `selectTag_12ex` up to `msgsnd`; `parsing` is what the stack
holds at the table. -/
def selectTag (d : Plcs) (sensingTime : UInt32) (parsing : Mem) (buffer : List UInt8)
    (trCount : ℕ) : Written :=
  let count := UInt8.ofNat trCount
  if tokens 0x3B buffer = [] then ⟨[count], true⟩
  else
    let rows := readRows d.width (d.height * d.width) sensingTime trCount 0
      (d.pieceTable parsing buffer)
    ⟨count :: rows.bytes, rows.null⟩

/-- The message handed to `msgsnd`; `none` where `NULL` was used or `data_buff` was left. -/
def Written.message (o : Written) : Option TData :=
  if o.null = true ∨ 1024 < o.bytes.length then none else some (Driver.message o.bytes)

/-- What a driver does with a frame; `none` when it ignores the frame. -/
def handle (d : Plcs) (indexCount : ℤ) (sensingTime : UInt32) (parsing : Mem)
    (frame : List UInt8) : Option Written :=
  match fieldTable frame with
  | none => some ⟨[], true⟩
  | some (table, parsingCnt) =>
      (d.tags indexCount table parsingCnt).map
        (fun ts => d.selectTag sensingTime parsing (setString ts) ts.length)

/-! ### Rows as strings -/

/-- What is read from rows that hold the given strings. -/
def read (sensingTime : UInt32) : List (List UInt8) → Written
  | [] => ⟨[], false⟩
  | s :: rows =>
      match tokens 0x3A s with
      | [] => ⟨[], true⟩
      | [trid] => ⟨[atoi trid, 0] ++ utc sensingTime, true⟩
      | trid :: value :: _ =>
          let rest := read sensingTime rows
          ⟨record sensingTime trid value ++ rest.bytes, rest.null⟩

/-- Where, `w` bytes or more behind the beginning of a string, the first delimiter lies that is
overwritten when its first two tokens are read. -/
def cutAt (w : ℕ) (s : List UInt8) : Option ℕ :=
  let e₁ := firstEnd 0x3A s
  let e₂ := e₁ + 1 + firstEnd 0x3A (s.drop (e₁ + 1))
  if w ≤ e₁ ∧ e₁ < s.length then some e₁ else if w ≤ e₂ ∧ e₂ < s.length then some e₂ else none

/-- The strings met in the rows, up to one that a delimiter of the row before has cut. -/
def seen (w : ℕ) : List (List UInt8) → List (List UInt8)
  | [] => []
  | s :: rows =>
      s :: match cutAt w s with
        | some k => (rows.take 1).map (fun _ => (s.drop w).take (k - w))
        | none => seen w rows

/-- Both tokens of each row are there, and no row but the last cuts the next one. -/
def Complete (w : ℕ) : List (List UInt8) → Prop
  | [] => True
  | s :: rows => 2 ≤ (tokens 0x3A s).length ∧ (rows ≠ [] → cutAt w s = none) ∧ Complete w rows

instance decidableComplete (w : ℕ) : ∀ rows, Decidable (Complete w rows)
  | [] => inferInstanceAs (Decidable True)
  | _ :: rows =>
      have := decidableComplete w rows
      inferInstanceAs (Decidable (_ ∧ _ ∧ _))

/-! ### One row -/

section
variable {w limit a n : ℕ} {sensingTime : UInt32} {m : Mem} {s t r : List UInt8}

/-- What is left of a run of delimiters and a token has at most one token. -/
theorem tokens_drop_le (n j : ℕ) (ht : 0x3A ∉ t) :
    (tokens 0x3A ((List.replicate n 0x3A ++ t).drop j)).length ≤ 1 := by
  rw [List.drop_append, List.drop_replicate]
  exact length_tokens_le_one _ (fun h => ht (List.mem_of_mem_drop h))

theorem isString_cut (h : IsString m a s) {k : ℕ} (hw : w ≤ k) (hk : k < s.length) :
    IsString (m.store (a + k) [0]) (a + w) ((s.drop w).take (k - w)) := by
  have hcut := (h.drop_at (show w ≤ s.length by omega)).cut_at (k := k - w)
    (by rw [List.length_drop]; omega)
  rwa [show a + w + (k - w) = a + k by omega] at hcut

/-- The parts of a string whose first token is followed by a delimiter. -/
theorem cutAt_token (hne : t ≠ []) (ht : 0x3A ∉ t)
    (hs : s = List.replicate n 0x3A ++ (t ++ 0x3A :: r)) :
    s.length = n + t.length + 1 + r.length ∧ s.take (n + t.length) = List.replicate n 0x3A ++ t ∧
      s.drop (n + t.length + 1) = r ∧
      cutAt w s = if w ≤ n + t.length then some (n + t.length)
        else if w ≤ n + t.length + 1 + firstEnd 0x3A r ∧ firstEnd 0x3A r < r.length then
          some (n + t.length + 1 + firstEnd 0x3A r)
        else none := by
  have hend := firstEnd_token n hne ht r
  have hdrop := drop_firstEnd_token n hne ht r
  rw [hend] at hdrop
  have hlen : s.length = n + t.length + 1 + r.length := by
    rw [hs]
    simp only [List.length_append, List.length_replicate, List.length_cons]
    omega
  refine ⟨hlen, ?_, by rw [hs, hdrop], ?_⟩
  · rw [hs, ← List.append_assoc]
    exact List.take_left' (by simp)
  · rw [← hs] at hend hdrop
    simp only [cutAt, hend, hdrop, hlen]
    have h1 : (w ≤ n + t.length ∧ n + t.length < n + t.length + 1 + r.length) ↔
        w ≤ n + t.length := by omega
    have h2 : (w ≤ n + t.length + 1 + firstEnd 0x3A r ∧
        n + t.length + 1 + firstEnd 0x3A r < n + t.length + 1 + r.length) ↔
        (w ≤ n + t.length + 1 + firstEnd 0x3A r ∧ firstEnd 0x3A r < r.length) := by omega
    simp only [h1, h2]

/-- What a delimiter cuts off from the next row has at most one token. -/
theorem tokens_cutAt_le {k : ℕ} (h : cutAt w s = some k) :
    (tokens 0x3A ((s.drop w).take (k - w))).length ≤ 1 := by
  cases shape 0x3A s with
  | blank n =>
      simp only [cutAt, firstEnd_blank, List.length_replicate, lt_irrefl, and_false, if_false] at h
      split_ifs at h with h2
      omega
  | @last n t hne ht =>
      have hlen : (List.replicate n (0x3A : UInt8) ++ t).length = n + t.length := by simp
      simp only [cutAt, firstEnd_last n hne ht, hlen, lt_irrefl, and_false, if_false] at h
      split_ifs at h with h2
      omega
  | @token n t r hne ht =>
      generalize hs : List.replicate n 0x3A ++ (t ++ 0x3A :: r) = s at h
      obtain ⟨-, htake, hdrop, hcutAt⟩ := cutAt_token (w := w) hne ht hs.symm
      rw [hcutAt] at h
      split_ifs at h with h1 h2
      · obtain rfl := Option.some.inj h
        rw [← List.drop_take, htake]
        exact tokens_drop_le n w ht
      · obtain rfl := Option.some.inj h
        obtain ⟨i, rfl⟩ := Nat.exists_eq_add_of_lt (Nat.lt_of_not_le h1)
        rw [show n + t.length + i + 1 = n + t.length + 1 + i by omega, ← List.drop_drop, hdrop,
          show n + t.length + 1 + firstEnd 0x3A r - (n + t.length + 1 + i) =
            firstEnd 0x3A r - i by omega, ← List.drop_take]
        cases shape 0x3A r with
        | blank k =>
            rw [firstEnd_blank, List.length_replicate] at h2
            exact absurd h2.2 (lt_irrefl k)
        | @last k v hv hd =>
            rw [firstEnd_last k hv hd, List.length_append, List.length_replicate] at h2
            exact absurd h2.2 (lt_irrefl _)
        | @token k v r' hv hd =>
            rw [firstEnd_token k hv hd, (cutAt_token (w := 0) hv hd rfl).2.1]
            exact tokens_drop_le k i hd

/-- What the calls of `strtok` for a row leave of the rows behind it: they are as before, or the
next one holds what `cutAt` says. -/
structure Leaves (w : ℕ) (m m' : Mem) (a : ℕ) (s : List UInt8) : Prop where
  kept : cutAt w s = none → ∀ x, a + w ≤ x → m' x = m x
  cut : ∀ k, cutAt w s = some k → w ≤ k ∧ k < s.length ∧
    IsString m' (a + w) ((s.drop w).take (k - w))

theorem leaves_one (h : IsString m a s) {e : ℕ} (he : e < s.length)
    (hcutAt : cutAt w s = if w ≤ e then some e else none) :
    Leaves w m (m.store (a + e) [0]) a s := by
  rcases Nat.lt_or_ge e w with hlt | hle
  · rw [if_neg (by omega)] at hcutAt
    refine ⟨fun _ x hx => ?_, fun k hk => ?_⟩
    · exact m.store_of_le (by rw [List.length_singleton]; omega)
    · rw [hcutAt] at hk
      cases hk
  · rw [if_pos hle] at hcutAt
    refine ⟨fun hnone => ?_, fun k hk => ?_⟩
    · rw [hcutAt] at hnone
      cases hnone
    · rw [hcutAt] at hk
      obtain rfl := Option.some.inj hk
      exact ⟨hle, he, isString_cut h hle he⟩

theorem leaves_two (h : IsString m a s) {e₁ e₂ : ℕ} (he : e₁ < e₂) (he₂ : e₂ < s.length)
    (hcutAt : cutAt w s = if w ≤ e₁ then some e₁ else if w ≤ e₂ then some e₂ else none) :
    Leaves w m ((m.store (a + e₁) [0]).store (a + e₂) [0]) a s := by
  rcases Nat.lt_or_ge e₁ w with hlt | hle
  · rw [if_neg (by omega)] at hcutAt
    have hfirst : ∀ x, a + w ≤ x → m.store (a + e₁) [0] x = m x := fun x hx =>
      m.store_of_le (by rw [List.length_singleton]; omega)
    refine ⟨fun hnone x hx => ?_, fun k hk => ?_⟩
    · rw [hcutAt] at hnone
      split_ifs at hnone with h2
      rw [Mem.store_of_le _ (by rw [List.length_singleton]; omega), hfirst x hx]
    · rw [hcutAt] at hk
      split_ifs at hk with h2
      obtain rfl := Option.some.inj hk
      -- the first zero lies before the next row
      have hstored := (h.drop_at (k := w) (by omega)).congr (fun x hx _ => hfirst x hx)
      have hcut := hstored.cut_at (k := e₂ - w) (by rw [List.length_drop]; omega)
      rw [show a + w + (e₂ - w) = a + e₂ by omega] at hcut
      exact ⟨h2, he₂, hcut⟩
  · rw [if_pos hle] at hcutAt
    have hone := leaves_one h (he.trans he₂) (by rw [hcutAt, if_pos hle])
    refine ⟨fun hnone => ?_, fun k hk => ?_⟩
    · rw [hcutAt] at hnone
      cases hnone
    · obtain ⟨hwk, hks, hstring⟩ := hone.cut k hk
      rw [hcutAt] at hk
      obtain rfl := Option.some.inj hk
      refine ⟨hwk, hks, hstring.store (Or.inl ?_)⟩
      rw [List.length_take, List.length_drop]
      omega

theorem strtok_row (w : ℕ) (h : IsString m a s) (hlimit : a + s.length < limit) :
    (tokens 0x3A s = [] ∧ (strtok 0x3A limit m a).token = none) ∨
      (∃ trid m' b, tokens 0x3A s = [trid] ∧ strtok 0x3A limit m a = ⟨some trid, b, m'⟩ ∧
        (strtok 0x3A limit m' b).token = none) ∨
      ∃ trid text ts m' b m'' c, tokens 0x3A s = trid :: text :: ts ∧
        strtok 0x3A limit m a = ⟨some trid, b, m'⟩ ∧
        strtok 0x3A limit m' b = ⟨some text, c, m''⟩ ∧ Leaves w m m'' a s := by
  cases shape 0x3A s with
  | blank n =>
      rw [List.length_replicate] at hlimit
      exact Or.inl ⟨tokens_blank _ n, by rw [strtok_blank h hlimit]⟩
  | @last n t hne ht =>
      have hlen : (List.replicate n (0x3A : UInt8) ++ t).length = n + t.length := by simp
      rw [hlen] at hlimit
      have hnext : IsString m (a + (n + t.length)) (List.replicate 0 0x3A) := by
        have := h.drop_at (le_refl _)
        rwa [hlen, List.drop_of_length_le (by omega)] at this
      exact Or.inr (Or.inl ⟨t, m, _, tokens_last n hne ht, strtok_last hne ht h hlimit, by
        rw [strtok_blank hnext (by omega)]⟩)
  | @token n t r hne ht =>
      right
      generalize hs : List.replicate n 0x3A ++ (t ++ 0x3A :: r) = s at h hlimit
      obtain ⟨hlen, -, hdrop, hcutAt⟩ := cutAt_token (w := w) hne ht hs.symm
      have hfirst : strtok 0x3A limit m a =
          ⟨some t, a + (n + t.length) + 1, m.store (a + (n + t.length)) [0]⟩ :=
        strtok_token hne ht (hs ▸ h) (by omega)
      have htokens : tokens 0x3A s = t :: tokens 0x3A r := by rw [← hs, tokens_shape_token n hne ht]
      have hr : IsString (m.store (a + (n + t.length)) [0]) (a + (n + t.length) + 1) r := by
        have := h.drop_at (k := n + t.length + 1) (by omega)
        rw [hdrop] at this
        exact this.store (Or.inr (by simp))
      cases shape 0x3A r with
      | blank k =>
          rw [List.length_replicate] at hlen
          exact Or.inl ⟨t, _, _, by rw [htokens, tokens_blank], hfirst, by
            rw [strtok_blank hr (by omega)]⟩
      | @last k v hv hd =>
          have hv' : (List.replicate k (0x3A : UInt8) ++ v).length = k + v.length := by simp
          simp only [firstEnd_last k hv hd, hv', lt_irrefl, and_false, if_false] at hcutAt
          exact Or.inr ⟨t, v, [], _, _, _, _, by rw [htokens, tokens_last k hv hd], hfirst,
            strtok_last hv hd hr (by omega), leaves_one h (by omega) hcutAt⟩
      | @token k v r' hv hd =>
          generalize hr' : List.replicate k 0x3A ++ (v ++ 0x3A :: r') = r at *
          obtain ⟨hlen', -, -, -⟩ := cutAt_token (w := w) hv hd hr'.symm
          have hend : firstEnd 0x3A r = k + v.length := by rw [← hr', firstEnd_token k hv hd]
          have hlt : k + v.length < r.length := by omega
          simp only [hend, hlt, and_true] at hcutAt
          have hsecond := strtok_token hv hd (hr' ▸ hr)
            (show _ < limit by omega)
          rw [show a + (n + t.length) + 1 + (k + v.length) =
            a + (n + t.length + 1 + (k + v.length)) by omega] at hsecond
          exact Or.inr ⟨t, v, tokens 0x3A r', _, _, _, _, by
            rw [htokens, ← hr', tokens_shape_token k hv hd], hfirst, hsecond,
            leaves_two h (by omega) (by omega) hcutAt⟩

/-! ### All rows -/

theorem readRows_short {i : ℕ} (h : IsString m (i * w) s) (hlimit : i * w + s.length < limit)
    (hone : (tokens 0x3A s).length ≤ 1) (n : ℕ) :
    readRows w limit sensingTime (n + 1) i m = read sensingTime [s] := by
  rcases strtok_row w h hlimit with ⟨ht, hnone⟩ | ⟨trid, m', b, ht, hid, hnone⟩ |
    ⟨trid, text, ts, m', b, m'', c, ht, -⟩
  · simp only [readRows, hnone, read, ht]
  · simp only [readRows, hid, hnone, read, ht]
  · rw [ht] at hone
    simp at hone

/-- **Rows as strings**: reading the rows of the table is reading their strings, as they are
`seen`. -/
theorem readRows_eq (sensingTime : UInt32) {row : ℕ → List UInt8} (n : ℕ) : ∀ {i : ℕ} {m : Mem},
    (∀ j, i ≤ j → j < i + n → IsString m (j * w) (row j) ∧ j * w + (row j).length < limit) →
      readRows w limit sensingTime n i m =
        read sensingTime (seen w ((List.range' i n).map row)) := by
  induction n with
  | zero => exact fun _ => rfl
  | succ n ih =>
      intro i m h
      obtain ⟨hs, hlimit⟩ := h i le_rfl (by omega)
      rw [List.range'_succ, List.map_cons]
      rcases strtok_row w hs hlimit with ⟨ht, hnone⟩ | ⟨trid, m', b, ht, hid, hnone⟩ |
        ⟨trid, text, ts, m', b, m'', c, ht, hid, hvalue, hleaves⟩
      · simp only [readRows, hnone, seen, read, ht]
      · simp only [readRows, hid, hnone, seen, read, ht]
      have hrest : readRows w limit sensingTime n (i + 1) m'' =
          read sensingTime (match cutAt w (row i) with
            | some k => (((List.range' (i + 1) n).map row).take 1).map
                (fun _ => ((row i).drop w).take (k - w))
            | none => seen w ((List.range' (i + 1) n).map row)) := by
        cases hc : cutAt w (row i) with
        | none =>
            apply ih
            intro j h1 h2
            obtain ⟨hj, hjlimit⟩ := h j (by omega) (by omega)
            have hmul := Nat.mul_le_mul_right w h1
            rw [Nat.succ_mul] at hmul
            exact ⟨hj.congr (fun x hx _ => hleaves.kept hc x (by omega)), hjlimit⟩
        | some k =>
            obtain ⟨hwk, hk, hu⟩ := hleaves.cut k hc
            cases n with
            | zero => rfl
            | succ n =>
                rw [← Nat.succ_mul] at hu
                refine readRows_short hu ?_ (tokens_cutAt_le hc) n
                rw [List.length_take, Nat.succ_mul]
                omega
      simp only [readRows, hid, hvalue, seen, read, ht, hrest]

end

theorem map_getD_range' {rows : List (List UInt8)} {n : ℕ} (h : rows.length = n) :
    (List.range' 0 n).map (fun i => rows.getD i []) = rows := by
  refine List.ext_getElem (by simp [h]) (fun i h1 h2 => ?_)
  rw [List.getElem_map, List.getElem_range', Nat.zero_add, Nat.one_mul,
    List.getD_eq_getElem _ _ h2]

/-! ### Missing tokens and the length of the message -/

section
variable {w : ℕ} {sensingTime : UInt32} {rows : List (List UInt8)}

theorem null_read_short {s : List UInt8} (h : (tokens 0x3A s).length ≤ 1) :
    (read sensingTime [s]).null = true := by
  rw [read]
  cases ht : tokens 0x3A s with
  | nil => rfl
  | cons trid ts =>
      cases ts with
      | nil => rfl
      | cons value ts =>
          rw [ht] at h
          simp at h

theorem null_read : (read sensingTime (seen w rows)).null = false ↔ Complete w rows := by
  induction rows with
  | nil => simp [seen, read, Complete]
  | cons s rows ih =>
      rw [seen, read, Complete]
      cases ht : tokens 0x3A s with
      | nil => simp
      | cons trid ts =>
          cases ts with
          | nil => simp
          | cons value ts =>
              cases hc : cutAt w s with
              | none => simp [ih]
              | some k =>
                  cases rows with
                  | nil => simp [read, Complete]
                  | cons s' rows =>
                      have hone := tokens_cutAt_le hc
                      simp [null_read_short hone]

/-- Number of bytes written for rows with the given strings. -/
def size : List (List UInt8) → ℕ
  | [] => 0
  | s :: rows =>
      match tokens 0x3A s with
      | [] => 0
      | [_] => 6
      | _ :: value :: _ => 8 + value.length + size rows

theorem length_read : (read sensingTime rows).bytes.length = size rows := by
  induction rows with
  | nil => rfl
  | cons s rows ih =>
      rw [read, size]
      cases tokens 0x3A s with
      | nil => rfl
      | cons trid ts =>
          cases ts with
          | nil => rfl
          | cons value ts =>
              simp only [List.length_append, ih, record]
              simp [utc]
              omega

end

end IdcuIot.Driver.Plcs
