namespace StopAndWait

inductive Mode
  -- Not fixed yet: the first read or write decides.
  | undefined
  | sender
  | receiver
  deriving DecidableEq, Repr

def Mode.name : Mode → String
  | undefined => "Undefined"
  | sender => "Sender"
  | receiver => "Receiver"

inductive Switching
  -- Wait for the peer to hand the role over or take it.
  | auto
  -- Refuse the call.
  | manual
  deriving DecidableEq, Repr

end StopAndWait
