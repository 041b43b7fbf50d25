import IdcuIot.Lib.Memory

/-! # Types of `iDCU.h`

`t_data` is what the programs put on the System V queues between them, `READENV` what they
read from `env.reg`, `MGData` the production counts. -/

namespace IdcuIot

open Memory

/-- `MGData`: the counts of the eight ports. -/
structure MGData where
  cnt : Fin 8 → UInt32
deriving DecidableEq

/-- `READENV`. -/
structure ReadEnv where
  middlewareIp : UInt32
  middlewarePort : UInt16
  manufacturer : List UInt8
  producno : List UInt8
  registration : UInt8
  gatenode : UInt16
  pan : UInt16
  sensornode : UInt16
  timeout : UInt32

/-- `t_data`: `data_num` counts the bytes of `data_buff` that belong to the message. -/
structure TData where
  dataType : ℕ
  dataNum : ℕ
  dataBuff : Mem

namespace TData

/-- The bytes of a message. -/
def bytes (d : TData) : List UInt8 := d.dataBuff.slice 0 d.dataNum

/-- `memset( &data, 0, sizeof( t_data ) )`, then `memcpy( data.data_buff, buffer, len )`. -/
def ofBuffer (dataType : ℕ) (buffer : Mem) (len : ℕ) : TData :=
  { dataType := dataType
    dataNum := len
    dataBuff := Mem.memcpy (fun _ => 0) 0 buffer 0 len }

@[simp] theorem dataNum_ofBuffer (dataType : ℕ) (buffer : Mem) (len : ℕ) :
    (ofBuffer dataType buffer len).dataNum = len := rfl

theorem dataBuff_ofBuffer (dataType : ℕ) (buffer : Mem) {len k : ℕ} (h : k < len) :
    (ofBuffer dataType buffer len).dataBuff k = buffer k := by
  have hk : k < (buffer.slice 0 len).length := by rwa [Mem.length_slice]
  have hget := Mem.store_zero (fun _ => 0) hk
  rwa [Mem.getElem_slice, Nat.zero_add] at hget

theorem slice_ofBuffer (dataType : ℕ) (buffer : Mem) {len n : ℕ} (h : n ≤ len) :
    (ofBuffer dataType buffer len).dataBuff.slice 0 n = buffer.slice 0 n :=
  Mem.slice_congr (fun k hk => by
    rw [Nat.zero_add, dataBuff_ofBuffer dataType buffer (by omega)])

end TData
end IdcuIot
