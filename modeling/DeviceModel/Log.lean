/-!
Lines for the log.
-/

namespace DeviceModel

inductive LogLevel
  | error
  | warn
  | info
  | debug
  deriving DecidableEq, Repr

structure LogLine where
  level : LogLevel
  text : String
  deriving DecidableEq, Repr

end DeviceModel
