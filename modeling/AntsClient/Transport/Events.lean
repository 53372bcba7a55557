namespace AntsClient.Transport.Events

abbrev Conn := Nat

structure Stream where
  id : Nat
  bidi : Bool
  deriving DecidableEq

inductive Kind
  | connReady
  | connClosed
  | streamOpened
  | streamReadable
  | streamFin
  | streamReset
  | streamWritable
  deriving DecidableEq

structure Event where
  kind : Kind
  conn : Conn
  stream : Option Stream

end AntsClient.Transport.Events
