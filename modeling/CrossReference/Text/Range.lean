namespace CrossReference.Text

structure Range where
  start : Nat
  stop : Nat
deriving DecidableEq

end CrossReference.Text
