import IdcuIot.SetupManager.ConfigFile

/-! # `libpointparser.c`, `libDeviceInfoParser.c`

The settings of the nodes and of the devices are XML documents, read with the callbacks of expat.
Text comes in pieces: at the ends of the read buffer, at entities, at ends of lines.  The handlers
store every piece over the one before it.  `storesSettings_iff` says for which deliveries of which
documents every entry has its texts as they stand there. -/

namespace IdcuIot.PointParser

open SetupManager (cbytes)

/-! ### The handlers -/

/-- What expat calls the handlers with; of the attributes only whether there are any. -/
inductive Event where
  | startElement (el : List UInt8) (attr : Bool)
  | characterData (s : List UInt8)
  | endElement
deriving DecidableEq

/-- What differs between the two parsers: the element of an entry, and those that are stored. -/
structure Handlers where
  entry : List UInt8
  fields : List (List UInt8)
  entry_notMem : entry ∉ fields

/-- `pointparser`. -/
def pointparser : Handlers :=
  ⟨cbytes "NODEINFO", [cbytes "IP", cbytes "PORT", cbytes "BASESCANRATE", cbytes "DEVICEID"],
    by decide⟩

/-- `deviceInfoParser`. -/
def deviceInfoParser : Handlers :=
  ⟨cbytes "DEVICEINFO", [cbytes "DRIVER", cbytes "DEVICEID"], by decide⟩

/-- `MAX_DEVICE`. -/
def maxDevice : ℕ := 32

/-- `MAX_BUFFER`. -/
def maxBuffer : ℕ := 32

/-- The variables of the handlers; `table` has a text for each entry and element, and `user_num`
becomes `getPointSize`. -/
structure State where
  isValue : Bool
  currentEl : Option (List UInt8)
  currentId : Bool
  userNum : ℕ
  table : ℕ → List UInt8 → List UInt8

/-- Nothing has been read: the tables are empty. -/
def State.start : State := ⟨false, none, false, 0, fun _ _ => []⟩

/-- What is copied into `buf`. -/
def kept (s : List UInt8) : List UInt8 := s.filter (fun b => b ≠ 0x0A && b ≠ 0x09)

/-- `sprintf( taginfo.tag[user_num-1].ip, "%s", buf )` and its like; not defined outside of the
arrays. -/
def State.store (s : State) (el text : List UInt8) : Option State :=
  if 0 < s.userNum ∧ s.userNum ≤ maxDevice ∧ text.length < maxBuffer then
    some { s with table := fun k f =>
      if k = s.userNum - 1 ∧ f = el then text else s.table k f }
  else none

/-- `start`, `parser` and `end`; `parser` is not defined where it fills more than `buf[1024]`. -/
def handle (P : Handlers) (s : State) : Event → Option State
  | .startElement el attr =>
      some { s with
        isValue := true
        currentEl := some el
        currentId := attr
        userNum := if el = P.entry then s.userNum + 1 else s.userNum }
  | .characterData data =>
      let buf := kept data
      if 1024 < buf.length then none
      else
        match s.currentEl with
        | none => some s
        | some el =>
            let text := buf.takeWhile (· ≠ 0)
            if s.isValue = true ∧ text ≠ [] ∧ s.currentId = false ∧ el ∈ P.fields then
              s.store el text
            else some s
  | .endElement => some { s with isValue := false }

/-- The callbacks of a document. -/
def run (P : Handlers) (events : List Event) (s : State) : Option State :=
  events.foldlM (handle P) s

/-! ### Documents -/

/-- An event outside of the settings: it begins no entry, and no element that is stored unless that
one has attributes, which keep it from being a setting. -/
def Handlers.Ignores (P : Handlers) : Event → Prop
  | .startElement el attr => el ≠ P.entry ∧ (el ∈ P.fields → attr = true)
  | _ => True

/-- What stands in a setting: a piece of its text, or an element with all that belongs to it. -/
inductive Content (P : Handlers) where
  | text (piece : List UInt8) (nonzero : 0 ∉ piece)
  | child (el : List UInt8) (attr : Bool) (body : List Event)
      (ignored : ∀ e ∈ Event.startElement el attr :: body, P.Ignores e)

/-- What stands in an entry: a setting, or an event that belongs to none. -/
inductive Part (P : Handlers) where
  | setting (el : List UInt8) (mem : el ∈ P.fields) (contents : List (Content P))
  | other (e : Event) (ignored : P.Ignores e)

section
variable {P : Handlers}

def Content.events : Content P → List Event
  | .text piece _ => [.characterData piece]
  | .child el attr body _ => .startElement el attr :: body

/-- The pieces of an element's own text. -/
def pieces (contents : List (Content P)) : List (List UInt8) :=
  contents.filterMap (fun
    | .text piece _ => some piece
    | .child .. => none)

/-- The pieces in front of the first element. -/
def firstPieces : List (Content P) → List (List UInt8)
  | .text piece _ :: contents => piece :: firstPieces contents
  | _ => []

def Part.events : Part P → List Event
  | .setting el _ contents =>
      .startElement el false :: (contents.flatMap Content.events ++ [.endElement])
  | .other e _ => [e]

/-- The element of a setting. -/
def Part.name : Part P → Option (List UInt8)
  | .setting el _ _ => some el
  | .other .. => none

/-- What the setting `f` contains, if the part is one. -/
def Part.contentsOf (f : List UInt8) : Part P → List (Content P)
  | .setting el _ contents => if el = f then contents else []
  | .other .. => []

end

/-- An entry has each setting once at most. -/
structure Entry (P : Handlers) where
  attr : Bool
  parts : List (Part P)
  once : (parts.filterMap Part.name).Nodup

section
variable {P : Handlers}

def Entry.events (e : Entry P) : List Event :=
  .startElement P.entry e.attr :: e.parts.flatMap Part.events

/-- What the setting `f` of an entry contains; nothing if there is none. -/
def Entry.contentsOf (e : Entry P) (f : List UInt8) : List (Content P) :=
  e.parts.flatMap (Part.contentsOf f)

/-- The whole text of a setting, without ends of lines and tabs. -/
def Entry.text (e : Entry P) (f : List UInt8) : List UInt8 :=
  kept (pieces (e.contentsOf f)).flatten

end

/-- A document with at most 32 entries, whose texts are shorter than 32 bytes. -/
structure Document (P : Handlers) where
  before : List Event
  ignored : ∀ e ∈ before, P.Ignores e
  entries : List (Entry P)
  few : entries.length ≤ maxDevice
  short : ∀ e ∈ entries, ∀ f, (e.text f).length < maxBuffer

/-- What expat delivers. -/
def Document.events {P : Handlers} (d : Document P) : List Event :=
  d.before ++ d.entries.flatMap Entry.events

/-- The table has the whole text of every setting, and the number of entries. -/
def StoresSettings {P : Handlers} (d : Document P) : Prop :=
  ∃ s, run P d.events .start = some s ∧ s.userNum = d.entries.length ∧
    ∀ k (hk : k < d.entries.length), ∀ f ∈ P.fields, s.table k f = (d.entries[k]).text f

/-- The pieces that have something besides ends of lines and tabs. -/
def solid (ps : List (List UInt8)) : List (List UInt8) := (ps.map kept).filter (· ≠ [])

/-- The text of a setting comes in one piece, but for ends of lines and tabs, in front of any
element. -/
def InOnePiece {P : Handlers} (contents : List (Content P)) : Prop :=
  solid (firstPieces contents) = solid (pieces contents) ∧ (solid (pieces contents)).length ≤ 1

/-- A piece leaves `buf` as it is behind its end. -/
def FitsBuf : Event → Prop
  | .characterData data => (kept data).length ≤ 1024
  | _ => True

/-- Every setting is delivered in one piece, and no piece of any text is longer than `buf`. -/
def DeliveredWhole {P : Handlers} (d : Document P) : Prop :=
  (∀ e ∈ d.entries, ∀ f ∈ P.fields, InOnePiece (e.contentsOf f)) ∧ ∀ e ∈ d.events, FitsBuf e

/-! ### What the handlers store -/

/-- The handlers store the text that comes next. -/
def Storing (P : Handlers) (s : State) : Prop :=
  s.isValue = true ∧ s.currentId = false ∧ ∃ el ∈ P.fields, s.currentEl = some el

/-- The text that is there after some pieces, when it was `v` before. -/
def lastPiece (v : List UInt8) (ps : List (List UInt8)) : List UInt8 :=
  ps.foldl (fun v p => if kept p = [] then v else kept p) v

/-- The text of a setting as it is stored. -/
def stored {P : Handlers} (parts : List (Part P)) (f v : List UInt8) : List UInt8 :=
  parts.foldl (fun v part => lastPiece v (firstPieces (part.contentsOf f))) v

section
variable {P : Handlers} {s s' : State} {e : Event} {es es' : List Event} {el : List UInt8}

theorem run_append (es es' : List Event) (s : State) :
    run P (es ++ es') s = (run P es s).bind (run P es') := List.foldlM_append

theorem run_cons (h : handle P s e = some s') : run P (e :: es) s = run P es s' := by
  simp [run, h]

theorem fitsBuf_of_run (h : run P es s = some s') : ∀ e ∈ es, FitsBuf e := by
  induction es generalizing s with
  | nil => exact fun e he => by cases he
  | cons e es ih =>
      obtain ⟨s₁, h₁, h⟩ := Option.bind_eq_some_iff.mp h
      refine List.forall_mem_cons.mpr ⟨?_, ih h⟩
      cases e with
      | startElement el attr => exact trivial
      | endElement => exact trivial
      | characterData data =>
          by_contra hlong
          simp only [handle, if_pos (Nat.lt_of_not_le hlong)] at h₁
          cases h₁

/-- The state after an event that stores nothing. -/
structure Quiet (P : Handlers) (s s' : State) : Prop where
  idle : ¬ Storing P s'
  userNum : s'.userNum = s.userNum
  table : s'.table = s.table

theorem Quiet.trans {s'' : State} (h : Quiet P s s') (h' : Quiet P s' s'') : Quiet P s s'' :=
  ⟨h'.idle, h'.userNum.trans h.userNum, h'.table.trans h.table⟩

theorem handle_start {attr : Bool} (s : State) (h : P.Ignores (.startElement el attr)) :
    ∃ s', handle P s (.startElement el attr) = some s' ∧ Quiet P s s' := by
  refine ⟨_, rfl, ?_, if_neg h.1, rfl⟩
  rintro ⟨-, hattr, f, hf, hel⟩
  cases hel
  rw [h.2 hf] at hattr
  cases hattr

theorem handle_ignored (h : P.Ignores e) (hs : ¬ Storing P s) (hfits : FitsBuf e) :
    ∃ s', handle P s e = some s' ∧ Quiet P s s' := by
  cases e with
  | startElement el attr => exact handle_start s h
  | endElement => exact ⟨_, rfl, fun hstoring => absurd hstoring.1 Bool.false_ne_true, rfl, rfl⟩
  | characterData data =>
      refine ⟨s, ?_, hs, rfl, rfl⟩
      simp only [handle, if_neg (Nat.not_lt.mpr hfits)]
      cases hel : s.currentEl with
      | none => rfl
      | some el => exact if_neg (fun hall => hs ⟨hall.1, hall.2.2.1, el, hall.2.2.2, hel⟩)

theorem run_ignored (h : ∀ e ∈ es, P.Ignores e) (hs : ¬ Storing P s) (hfits : ∀ e ∈ es, FitsBuf e) :
    ∃ s', run P es s = some s' ∧ Quiet P s s' := by
  induction es generalizing s with
  | nil => exact ⟨s, rfl, hs, rfl, rfl⟩
  | cons e es ih =>
      rw [List.forall_mem_cons] at h hfits
      obtain ⟨s₁, h₁, hquiet⟩ := handle_ignored h.1 hs hfits.1
      obtain ⟨s₂, h₂, hquiet₂⟩ := ih h.2 hquiet.idle hfits.2
      exact ⟨s₂, (run_cons h₁).trans h₂, hquiet.trans hquiet₂⟩

/-- The table with another text for a setting of the last entry. -/
def State.put (s : State) (el text : List UInt8) : State :=
  { s with table := fun k f => if k = s.userNum - 1 ∧ f = el then text else s.table k f }

/-- The variables while a setting of an entry is read. -/
structure InSetting (P : Handlers) (el : List UInt8) (s : State) : Prop where
  isValue : s.isValue = true
  currentEl : s.currentEl = some el
  currentId : s.currentId = false
  mem : el ∈ P.fields
  entry : 0 < s.userNum ∧ s.userNum ≤ maxDevice

theorem handle_piece {p : List UInt8} (hs : InSetting P el s) (hzero : 0 ∉ p)
    (hshort : (kept p).length < maxBuffer) : handle P s (.characterData p) =
      some (if kept p = [] then s else s.put el (kept p)) := by
  have htext : (kept p).takeWhile (· ≠ 0) = kept p := by
    rw [List.takeWhile_eq_self_iff]
    intro b hb
    exact decide_eq_true (fun h => hzero (h ▸ List.mem_of_mem_filter hb))
  have hbuf : ¬ 1024 < (kept p).length := by
    unfold maxBuffer at hshort
    omega
  simp only [handle, if_neg hbuf, hs.currentEl, htext]
  split_ifs with hall hempty hempty
  · exact absurd hempty hall.2.1
  · exact if_pos ⟨hs.entry.1, hs.entry.2, hshort⟩
  · rfl
  · exact absurd ⟨hs.isValue, hempty, hs.currentId, hs.mem⟩ hall

theorem InSetting.put (hs : InSetting P el s) (text : List UInt8) :
    InSetting P el (s.put el text) :=
  ⟨hs.isValue, hs.currentEl, hs.currentId, hs.mem, hs.entry⟩

theorem State.put_put (s : State) (el text text' : List UInt8) :
    (s.put el text).put el text' = s.put el text' := by
  unfold State.put
  congr 1
  funext k f
  dsimp only
  split_ifs <;> rfl

theorem State.put_self (s : State) (el : List UInt8) :
    s.put el (s.table (s.userNum - 1) el) = s := by
  unfold State.put
  congr 1
  funext k f
  split_ifs with h
  · rw [h.1, h.2]
  · rfl

theorem State.table_put (s : State) (el text : List UInt8) :
    (s.put el text).table ((s.put el text).userNum - 1) el = text := if_pos ⟨rfl, rfl⟩

theorem lastPiece_cons (v p : List UInt8) (ps : List (List UInt8)) :
    lastPiece v (p :: ps) = lastPiece (if kept p = [] then v else kept p) ps := rfl

theorem ignores_of_mem_contents {contents : List (Content P)} :
    ∀ e ∈ contents.flatMap Content.events, P.Ignores e := by
  intro e he
  obtain ⟨c, -, hc⟩ := List.mem_flatMap.mp he
  cases c with
  | text piece nonzero =>
      rw [List.mem_singleton.mp hc]
      exact trivial
  | child el attr body ignored => exact ignored e hc

/-- The contents of a setting: the pieces in front of the first element, and then nothing more. -/
theorem run_contents {contents : List (Content P)} (hs : InSetting P el s)
    (hshort : ∀ p ∈ pieces contents, (kept p).length < maxBuffer)
    (hfits : ∀ e ∈ contents.flatMap Content.events, FitsBuf e) :
    ∃ s', run P (contents.flatMap Content.events) s = some s' ∧ s'.userNum = s.userNum ∧ s'.table =
      (s.put el (lastPiece (s.table (s.userNum - 1) el) (firstPieces contents))).table := by
  induction contents generalizing s with
  | nil => exact ⟨s, rfl, rfl, congrArg State.table (s.put_self el).symm⟩
  | cons c contents ih =>
      rw [List.flatMap_cons, List.forall_mem_append] at hfits
      cases c with
      | text piece nonzero =>
          have hpieces : pieces (Content.text piece nonzero :: contents) =
              piece :: pieces contents := rfl
          rw [hpieces, List.forall_mem_cons] at hshort
          have hone := handle_piece hs nonzero hshort.1
          rw [firstPieces, lastPiece_cons]
          by_cases hempty : kept piece = []
          · rw [if_pos hempty] at hone ⊢
            obtain ⟨s', hrun, hnum, htable⟩ := ih hs hshort.2 hfits.2
            exact ⟨s', (run_cons hone).trans hrun, hnum, htable⟩
          · rw [if_neg hempty] at hone ⊢
            obtain ⟨s', hrun, hnum, htable⟩ := ih (hs.put (kept piece)) hshort.2 hfits.2
            rw [State.table_put, State.put_put] at htable
            exact ⟨s', (run_cons hone).trans hrun, hnum, htable⟩
      | child el' attr body ignored =>
          obtain ⟨s₁, h₁, hquiet⟩ := handle_start s (ignored _ List.mem_cons_self)
          have hignored : ∀ e ∈ body ++ contents.flatMap Content.events, P.Ignores e :=
            List.forall_mem_append.mpr
              ⟨fun e he => ignored e (List.mem_cons_of_mem _ he), ignores_of_mem_contents⟩
          obtain ⟨s', hrun, hquiet'⟩ := run_ignored hignored hquiet.idle
            (List.forall_mem_append.mpr
              ⟨fun e he => hfits.1 e (List.mem_cons_of_mem _ he), hfits.2⟩)
          refine ⟨s', (run_cons h₁).trans hrun, ?_, ?_⟩
          · exact (hquiet.trans hquiet').userNum
          · rw [(hquiet.trans hquiet').table]
            exact congrArg State.table (s.put_self el).symm

theorem run_setting {contents : List (Content P)} (mem : el ∈ P.fields)
    (hnum : 0 < s.userNum ∧ s.userNum ≤ maxDevice)
    (hshort : ∀ p ∈ pieces contents, (kept p).length < maxBuffer)
    (hfits : ∀ e ∈ contents.flatMap Content.events, FitsBuf e) :
    ∃ s', run P (Part.setting el mem contents).events s = some s' ∧ ¬ Storing P s' ∧
      s'.userNum = s.userNum ∧ s'.table =
        (s.put el (lastPiece (s.table (s.userNum - 1) el) (firstPieces contents))).table := by
  have hel : el ≠ P.entry := fun h => P.entry_notMem (h ▸ mem)
  have hfirst : handle P s (.startElement el false) =
      some { s with isValue := true, currentEl := some el, currentId := false } := by
    simp [handle, hel]
  have hbegin : InSetting P el
      { s with isValue := true, currentEl := some el, currentId := false } :=
    ⟨rfl, rfl, rfl, mem, hnum⟩
  obtain ⟨s', hrun, hnum', htable⟩ := run_contents hbegin hshort hfits
  refine ⟨{ s' with isValue := false }, ?_, fun h => Bool.false_ne_true h.1, hnum', htable⟩
  rw [Part.events, run_cons hfirst, run_append, hrun]
  rfl

/-- A part of an entry: its setting, if it is one, is put into the table. -/
theorem run_part {part : Part P} (hs : ¬ Storing P s) (hnum : 0 < s.userNum ∧ s.userNum ≤ maxDevice)
    (hshort : ∀ f, ∀ p ∈ pieces (part.contentsOf f), (kept p).length < maxBuffer)
    (hfits : ∀ e ∈ part.events, FitsBuf e) :
    ∃ s', run P part.events s = some s' ∧ ¬ Storing P s' ∧ s'.userNum = s.userNum ∧
      ∀ k f, s'.table k f = if k = s.userNum - 1 then
        lastPiece (s.table k f) (firstPieces (part.contentsOf f)) else s.table k f := by
  cases part with
  | other e ignored =>
      obtain ⟨s', hs', hquiet⟩ := handle_ignored ignored hs (hfits e List.mem_cons_self)
      refine ⟨s', run_cons hs', hquiet.idle, hquiet.userNum, fun k f => ?_⟩
      rw [hquiet.table]
      exact (ite_self _).symm
  | setting el mem contents =>
      have hown : Part.contentsOf el (.setting el mem contents) = contents := if_pos rfl
      have hbound := hshort el
      rw [hown] at hbound
      have hcontents : ∀ e ∈ contents.flatMap Content.events, FitsBuf e := fun e he =>
        hfits e (List.mem_cons_of_mem _ (List.mem_append_left _ he))
      obtain ⟨s', hrun, hs', hnum', htable⟩ := run_setting mem hnum hbound hcontents
      refine ⟨s', hrun, hs', hnum', fun k f => ?_⟩
      have hcell := congrFun (congrFun htable k) f
      simp only [State.put] at hcell
      rw [hcell, Part.contentsOf]
      by_cases hk : k = s.userNum - 1
      · by_cases hf : f = el
        · rw [if_pos ⟨hk, hf⟩, if_pos hk, if_pos hf.symm, hk, hf]
        · rw [if_neg (fun h => hf h.2), if_pos hk, if_neg (Ne.symm hf)]
          rfl
      · rw [if_neg (fun h => hk h.1), if_neg hk]

theorem run_parts {parts : List (Part P)} (hs : ¬ Storing P s)
    (hnum : 0 < s.userNum ∧ s.userNum ≤ maxDevice)
    (hshort : ∀ f, ∀ p ∈ pieces (parts.flatMap (Part.contentsOf f)), (kept p).length < maxBuffer)
    (hfits : ∀ e ∈ parts.flatMap Part.events, FitsBuf e) :
    ∃ s', run P (parts.flatMap Part.events) s = some s' ∧ ¬ Storing P s' ∧ s'.userNum = s.userNum ∧
      ∀ k f, s'.table k f =
        if k = s.userNum - 1 then stored parts f (s.table k f) else s.table k f := by
  induction parts generalizing s with
  | nil => exact ⟨s, rfl, hs, rfl, fun k f => (ite_self _).symm⟩
  | cons part parts ih =>
      rw [List.flatMap_cons, List.forall_mem_append] at hfits
      have hsplit : ∀ f, pieces ((part :: parts).flatMap (Part.contentsOf f)) =
          pieces (part.contentsOf f) ++ pieces (parts.flatMap (Part.contentsOf f)) := fun f => by
        rw [List.flatMap_cons, pieces, List.filterMap_append]
        rfl
      simp only [hsplit, List.forall_mem_append] at hshort
      obtain ⟨s₁, h₁, hs₁, hnum₁, htable₁⟩ := run_part hs hnum (fun f => (hshort f).1) hfits.1
      obtain ⟨s₂, h₂, hs₂, hnum₂, htable₂⟩ :=
        ih hs₁ (by rwa [hnum₁]) (fun f => (hshort f).2) hfits.2
      refine ⟨s₂, ?_, hs₂, hnum₂.trans hnum₁, fun k f => ?_⟩
      · rw [List.flatMap_cons, run_append, h₁]
        exact h₂
      · rw [htable₂, htable₁, hnum₁]
        split_ifs <;> rfl

theorem run_entry {entry : Entry P} (hnum : s.userNum < maxDevice)
    (hshort : ∀ f, (entry.text f).length < maxBuffer) (hfits : ∀ e ∈ entry.events, FitsBuf e) :
    ∃ s', run P entry.events s = some s' ∧ ¬ Storing P s' ∧ s'.userNum = s.userNum + 1 ∧
      ∀ k f, s'.table k f =
        if k = s.userNum then stored entry.parts f (s.table k f) else s.table k f := by
  have hpieces : ∀ f, ∀ p ∈ pieces (entry.parts.flatMap (Part.contentsOf f)),
      (kept p).length < maxBuffer := by
    intro f p hp
    refine lt_of_le_of_lt ?_ (hshort f)
    exact ((List.sublist_flatten_of_mem hp).filter _).length_le
  have hbegin : ¬ Storing P
      { s with isValue := true, currentEl := some P.entry, currentId := entry.attr,
               userNum := s.userNum + 1 } := by
    rintro ⟨-, -, el, hel, hentry⟩
    cases hentry
    exact P.entry_notMem hel
  obtain ⟨s', hrun, hs', hnum', htable⟩ := run_parts hbegin ⟨Nat.succ_pos _, hnum⟩ hpieces
    (fun e he => hfits e (List.mem_cons_of_mem _ he))
  have hfirst : handle P s (.startElement P.entry entry.attr) =
      some { s with isValue := true, currentEl := some P.entry, currentId := entry.attr,
                    userNum := s.userNum + 1 } := by
    simp [handle]
  exact ⟨s', (run_cons hfirst).trans hrun, hs', hnum', htable⟩

theorem run_entries {entries : List (Entry P)} (hs : ¬ Storing P s)
    (hnum : s.userNum + entries.length ≤ maxDevice)
    (hshort : ∀ e ∈ entries, ∀ f, (e.text f).length < maxBuffer)
    (hfits : ∀ e ∈ entries.flatMap Entry.events, FitsBuf e) :
    ∃ s', run P (entries.flatMap Entry.events) s = some s' ∧
      s'.userNum = s.userNum + entries.length ∧
      (∀ k < s.userNum, s'.table k = s.table k) ∧
      ∀ i (hi : i < entries.length) f, s'.table (s.userNum + i) f =
        stored entries[i].parts f (s.table (s.userNum + i) f) := by
  induction entries generalizing s with
  | nil => exact ⟨s, rfl, rfl, fun _ _ => rfl, fun i hi => absurd hi (Nat.not_lt_zero i)⟩
  | cons entry entries ih =>
      rw [List.forall_mem_cons] at hshort
      rw [List.flatMap_cons, List.forall_mem_append] at hfits
      rw [List.length_cons] at hnum
      obtain ⟨s₁, h₁, hs₁, hnum₁, htable₁⟩ :=
        run_entry (by omega : s.userNum < maxDevice) hshort.1 hfits.1
      obtain ⟨s₂, h₂, hnum₂, hbelow, hrows⟩ := ih hs₁ (by omega) hshort.2 hfits.2
      refine ⟨s₂, ?_, ?_, fun k hk => ?_, fun i hi f => ?_⟩
      · rw [List.flatMap_cons, run_append, h₁]
        exact h₂
      · rw [hnum₂, hnum₁, List.length_cons]
        omega
      · funext f
        rw [hbelow k (by omega), htable₁, if_neg (by omega)]
      · cases i with
        | zero =>
            rw [hbelow _ (by omega), htable₁]
            exact if_pos rfl
        | succ i =>
            have hrow := hrows i (Nat.lt_of_succ_lt_succ hi) f
            rw [hnum₁, Nat.add_right_comm, Nat.add_assoc, htable₁, if_neg (by omega)] at hrow
            exact hrow

/-! ### What is stored and what stands there -/

theorem solid_cons (p : List UInt8) (ps : List (List UInt8)) :
    solid (p :: ps) = if kept p = [] then solid ps else kept p :: solid ps := by
  by_cases hempty : kept p = [] <;> simp [solid, hempty]

theorem lastPiece_eq_getLastD (v : List UInt8) (ps : List (List UInt8)) :
    lastPiece v ps = (solid ps).getLastD v := by
  induction ps generalizing v with
  | nil => rfl
  | cons p ps ih =>
      rw [lastPiece_cons, ih]
      rw [solid_cons]
      split_ifs
      · rfl
      · exact List.getLastD_cons.symm

theorem kept_flatten (ps : List (List UInt8)) : kept ps.flatten = (solid ps).flatten := by
  rw [solid, List.flatten_filter_ne_nil]
  exact List.filter_flatten

theorem isPrefix_firstPieces (contents : List (Content P)) :
    firstPieces contents <+: pieces contents := by
  induction contents with
  | nil => exact List.prefix_rfl
  | cons c contents ih =>
      cases c with
      | child => exact List.nil_prefix
      | text piece nonzero => exact (List.prefix_cons_inj piece).mpr ih

theorem eq_nil_of_flatten {texts : List (List UInt8)} (htexts : [] ∉ texts)
    (h : texts.flatten = []) : texts = [] := by
  cases texts with
  | nil => rfl
  | cons text texts =>
      have hempty : text = [] := (List.append_eq_nil_iff.mp h).1
      exact absurd (hempty ▸ List.mem_cons_self) htexts

/-- The last of the first texts is all of them only if it is the only one. -/
theorem getLastD_eq_flatten_iff {first texts : List (List UInt8)} (hfirst : first <+: texts)
    (htexts : [] ∉ texts) :
    first.getLastD [] = texts.flatten ↔ first = texts ∧ texts.length ≤ 1 := by
  constructor
  · intro h
    obtain ⟨rest, rfl⟩ := hfirst
    rcases List.eq_nil_or_concat first with rfl | ⟨init, text, rfl⟩
    · rw [List.nil_append] at h htexts
      simp [eq_nil_of_flatten htexts h.symm]
    · have hbefore : [] ∉ init := fun hmem => htexts (by simp [hmem])
      have hafter : [] ∉ rest := fun hmem => htexts (List.mem_append_right _ hmem)
      rw [List.concat_eq_append, List.getLastD_concat, List.flatten_append, List.flatten_append,
        List.flatten_singleton] at h
      have hlen := congrArg List.length h
      simp only [List.length_append] at hlen
      have hinit : init = [] :=
        eq_nil_of_flatten hbefore (List.length_eq_zero_iff.mp (by omega))
      have hrest : rest = [] :=
        eq_nil_of_flatten hafter (List.length_eq_zero_iff.mp (by omega))
      simp [hinit, hrest]
  · rintro ⟨rfl, hlen⟩
    match first, hlen with
    | [], _ => rfl
    | [text], _ => simp

theorem lastPiece_firstPieces_iff (contents : List (Content P)) :
    lastPiece [] (firstPieces contents) = kept (pieces contents).flatten ↔ InOnePiece contents := by
  rw [lastPiece_eq_getLastD, kept_flatten]
  exact getLastD_eq_flatten_iff (((isPrefix_firstPieces contents).map kept).filter _)
    (by simp [solid])

theorem stored_of_notMem {parts : List (Part P)} {f : List UInt8}
    (hf : f ∉ parts.filterMap Part.name) (v : List UInt8) :
    parts.flatMap (Part.contentsOf f) = [] ∧ stored parts f v = v := by
  induction parts with
  | nil => exact ⟨rfl, rfl⟩
  | cons part parts ih =>
      have hpart : part.contentsOf f = [] := by
        cases part with
        | other => rfl
        | setting el mem contents =>
            exact if_neg (fun h : el = f => hf (h ▸ List.mem_cons_self))
      have hparts : f ∉ parts.filterMap Part.name := fun h => hf (by
        rw [List.filterMap_cons]
        split
        · exact h
        · exact List.mem_cons_of_mem _ h)
      obtain ⟨hcontents, hstored⟩ := ih hparts
      refine ⟨by rw [List.flatMap_cons, hpart, hcontents]; rfl, ?_⟩
      rw [stored, List.foldl_cons, hpart]
      exact hstored

theorem stored_eq {parts : List (Part P)} (once : (parts.filterMap Part.name).Nodup)
    (f v : List UInt8) :
    stored parts f v = lastPiece v (firstPieces (parts.flatMap (Part.contentsOf f))) := by
  induction parts with
  | nil => rfl
  | cons part parts ih =>
      have hcons : stored (part :: parts) f v =
          stored parts f (lastPiece v (firstPieces (part.contentsOf f))) := rfl
      rw [hcons, List.flatMap_cons]
      cases part with
      | other e ignored => exact ih once
      | setting el mem contents =>
          have hnodup := List.nodup_cons.mp once
          by_cases hel : el = f
          · obtain ⟨hcontents, hstored⟩ := stored_of_notMem (hel ▸ hnodup.1) _
            rw [hcontents, hstored, List.append_nil]
          · rw [Part.contentsOf, if_neg hel]
            exact ih hnodup.2

/-- An entry has the whole text of a setting if that is delivered in one piece. -/
theorem stored_eq_text_iff (entry : Entry P) (f : List UInt8) :
    stored entry.parts f [] = entry.text f ↔ InOnePiece (entry.contentsOf f) := by
  rw [stored_eq entry.once]
  exact lastPiece_firstPieces_iff _

theorem run_document (d : Document P) (hfits : ∀ e ∈ d.events, FitsBuf e) :
    ∃ s, run P d.events .start = some s ∧ s.userNum = d.entries.length ∧
      ∀ k (hk : k < d.entries.length) f, s.table k f = stored (d.entries[k]).parts f [] := by
  obtain ⟨hbefore, hentries⟩ := List.forall_mem_append.mp hfits
  have hstart : ¬ Storing P .start := fun h => Bool.false_ne_true h.1
  obtain ⟨s₁, h₁, hquiet⟩ := run_ignored d.ignored hstart hbefore
  have hnum : s₁.userNum = 0 := hquiet.userNum
  obtain ⟨s₂, h₂, hnum₂, -, hrows⟩ :=
    run_entries hquiet.idle (by rw [hnum, Nat.zero_add]; exact d.few) d.short hentries
  refine ⟨s₂, ?_, by rw [hnum₂, hnum, Nat.zero_add], fun k hk f => ?_⟩
  · rw [Document.events, run_append, h₁]
    exact h₂
  · have hrow := hrows k hk f
    rwa [hquiet.table, hnum, Nat.zero_add] at hrow

/-- **The settings are stored exactly when every one is delivered in one piece.** -/
theorem storesSettings_iff (d : Document P) : StoresSettings d ↔ DeliveredWhole d := by
  constructor
  · rintro ⟨s, hrun, -, htable⟩
    have hfits := fitsBuf_of_run hrun
    obtain ⟨s', hrun', -, htable'⟩ := run_document d hfits
    obtain rfl : s = s' := Option.some.inj (hrun.symm.trans hrun')
    refine ⟨fun e he f hf => ?_, hfits⟩
    obtain ⟨k, hk, rfl⟩ := List.mem_iff_getElem.mp he
    exact (stored_eq_text_iff _ f).mp ((htable' k hk f).symm.trans (htable k hk f hf))
  · rintro ⟨hpieces, hfits⟩
    obtain ⟨s, hrun, hnum, htable⟩ := run_document d hfits
    refine ⟨s, hrun, hnum, fun k hk f hf => ?_⟩
    rw [htable k hk f]
    exact (stored_eq_text_iff _ f).mpr (hpieces _ (List.getElem_mem hk) f hf)

end

/-- `<NODEINFO><IP>1.2.3.4</IP></NODEINFO>`, where the read buffer ends behind `1.2`. -/
def splitAddress : Document pointparser where
  before := []
  ignored := fun e he => by cases he
  entries := [{
    attr := false
    parts := [.setting (cbytes "IP") (by decide)
      [.text (cbytes "1.2") (by decide), .text (cbytes ".3.4") (by decide)]]
    once := List.nodup_singleton _ }]
  few := by decide
  short := by
    intro e he f
    rw [List.mem_singleton.mp he]
    by_cases hf : cbytes "IP" = f
    · subst hf
      decide
    · simp [Entry.text, Entry.contentsOf, Part.contentsOf, hf, pieces, kept, maxBuffer]

/-- The node is given the address `.3.4`. -/
theorem not_storesSettings_splitAddress : ¬ StoresSettings splitAddress := by
  rintro ⟨s, hrun, -, htable⟩
  have hstored : (run pointparser splitAddress.events .start).map
      (fun s => s.table 0 (cbytes "IP")) = some (cbytes ".3.4") := by decide
  have htext : splitAddress.entries[0].text (cbytes "IP") = cbytes "1.2.3.4" := by decide
  have hrow := htable 0 (by decide) (cbytes "IP") (by decide)
  rw [hrun, Option.map_some, hrow] at hstored
  revert hstored
  decide

end IdcuIot.PointParser
