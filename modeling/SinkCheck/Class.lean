import SinkCheck.Code
import SinkCheck.Pool

/-! # Classes as they are handed to the detector -/

namespace SinkCheck

structure Method where
  name : String
  descriptor : String
  isStatic : Bool := false
  /-- `none` for a method without a body. -/
  code : Option Code
deriving DecidableEq

structure ClassUnit where
  name : String
  pool : Pool
  methods : List Method
deriving DecidableEq

end SinkCheck
