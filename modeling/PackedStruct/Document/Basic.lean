import PackedStruct.ByteOrder

namespace PackedStruct

mutual

structure DocumentField where
  name : String
  type : String
  offset : Nat
  bitWidth : Option Nat
  mask : Option String
  size : Option Nat
  elementSize : Option Nat
  length : Option Nat
  nested : Option Document

structure Document where
  name : String
  order : ByteOrder
  bits : Nat
  bytes : Nat
  fields : List DocumentField

end

end PackedStruct
