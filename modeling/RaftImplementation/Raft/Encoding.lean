import Mathlib.Algebra.GroupWithZero.Nat
import RaftImplementation.Library.Codec
import RaftImplementation.Raft.State

/-!
# An encoding that meets the assumption on `labgob`

Any code for the commands gives an encoding of the durable triple.
-/

namespace RaftImplementation

open Library

variable {n : Nat} {C : Type}

def LogEntry.codec (command : Codec C) : Codec (LogEntry C) :=
  (command.option.pair (Codec.nat.pair Codec.nat)).via
    (fun e => (e.command, e.term, e.index)) (fun x => some ⟨x.1, x.2.1, x.2.2⟩) fun _ => rfl

/-- Term, vote and log, one after the other. -/
def tripleCodec (n : Nat) (command : Codec C) :
    Codec (Nat × Option (Fin n) × List (LogEntry C)) :=
  Codec.nat.pair ((Codec.fin n).option.pair (LogEntry.codec command).list)

def Gob.ofCodec (n : Nat) (command : Codec C) : Gob n C where
  encode t v l := (tripleCodec n command).write (t, v, l)
  decode bs := ((tripleCodec n command).read bs).map Prod.fst
  decode_encode t v l := by
    have h := (tripleCodec n command).read_write (t, v, l) []
    rw [List.append_nil] at h
    rw [h]
    rfl
  encode_ne_nil t v l := by
    have h : (tripleCodec n command).write (t, v, l) = Codec.writeNat t ++
        ((Codec.fin n).option.pair (LogEntry.codec command).list).write (v, l) := rfl
    rw [h]
    simp [Codec.writeNat_ne_nil]

/-- Commands that are numbers. -/
def natGob (n : Nat) : Gob n Nat := .ofCodec n Codec.nat

/-- For the numerals that name the peers of a cluster of three. -/
instance neZeroThree : NeZero 3 := ⟨by decide⟩

end RaftImplementation
