import OpenRecovery.Storage.Bytes

/-!
# Values of the update script language

`Value` of `edify/expr.h`: a string or a blob with its size. `data` is `none` for a null pointer.
-/

set_option autoImplicit false

namespace OpenRecovery.Edify

open OpenRecovery.Storage

/-- `VAL_STRING` and `VAL_BLOB`. -/
inductive ValType where
  | string
  | blob
  deriving DecidableEq

/-- `Value`. The size of a string does not count its NUL. -/
structure Value where
  type : ValType
  size : Int
  data : Option Bytes
  deriving DecidableEq

/-- `StringValue` of a non-null string. -/
def stringValue (str : Bytes) : Value := ⟨.string, str.length, some str⟩

/-- A blob that holds all its bytes. -/
def blobValue (data : Bytes) : Value := ⟨.blob, data.length, some data⟩

end OpenRecovery.Edify
