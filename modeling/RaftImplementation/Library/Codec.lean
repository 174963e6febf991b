import Mathlib.Data.List.Basic

/-!
# Self-delimiting codes

A code writes a value as bytes and reads it back from the front of any byte
string that begins with them. Codes compose, so a record is written field by field.
-/

namespace RaftImplementation.Library

structure Codec (α : Type) where
  write : α → List UInt8
  read : List UInt8 → Option (α × List UInt8)
  read_write : ∀ a rest, read (write a ++ rest) = some (a, rest)

namespace Codec

variable {α β : Type}

/-- As many ones as the number says, closed by a zero. -/
def writeNat : Nat → List UInt8
  | 0 => [0]
  | k + 1 => 1 :: writeNat k

def readNat : List UInt8 → Option (Nat × List UInt8)
  | [] => none
  | b :: bs => if b = 0 then some (0, bs) else (readNat bs).map fun (k, r) => (k + 1, r)

def nat : Codec Nat where
  write := writeNat
  read := readNat
  read_write k rest := by
    induction k with
    | zero => rfl
    | succ k ih => simp [writeNat, readNat, ih]

def pair (a : Codec α) (b : Codec β) : Codec (α × β) where
  write x := a.write x.1 ++ b.write x.2
  read bs := (a.read bs).bind fun (x, r) => (b.read r).map fun (y, r) => ((x, y), r)
  read_write x rest := by
    simp [List.append_assoc, a.read_write, b.read_write]

/-- A code for `β` through a representation of its values. -/
def via (a : Codec α) (rep : β → α) (abs : α → Option β) (h : ∀ b, abs (rep b) = some b) :
    Codec β where
  write b := a.write (rep b)
  read bs := (a.read bs).bind fun (x, r) => (abs x).map fun b => (b, r)
  read_write b rest := by
    simp [a.read_write, h]

def option (a : Codec α) : Codec (Option α) where
  write
    | none => [0]
    | some x => 1 :: a.write x
  read
    | [] => none
    | b :: bs => if b = 0 then some (none, bs) else (a.read bs).map fun (x, r) => (some x, r)
  read_write x rest := by
    cases x with
    | none => rfl
    | some x => simp [a.read_write]

/-- `k` values, one after the other. -/
def readMany (a : Codec α) : Nat → List UInt8 → Option (List α × List UInt8)
  | 0, bs => some ([], bs)
  | k + 1, bs => (a.read bs).bind fun (x, r) => (readMany a k r).map fun (xs, r) => (x :: xs, r)

theorem readMany_write (a : Codec α) (l : List α) (rest : List UInt8) :
    a.readMany l.length (l.flatMap a.write ++ rest) = some (l, rest) := by
  induction l with
  | nil => rfl
  | cons x l ih => simp [readMany, List.append_assoc, a.read_write, ih]

/-- The length, then the elements. -/
def list (a : Codec α) : Codec (List α) where
  write l := nat.write l.length ++ l.flatMap a.write
  read bs := (nat.read bs).bind fun (k, r) => a.readMany k r
  read_write l rest := by
    simp [List.append_assoc, nat.read_write, a.readMany_write]

def fin (n : Nat) : Codec (Fin n) :=
  nat.via (fun i => i.val) (fun k => if h : k < n then some ⟨k, h⟩ else none) (by simp)

theorem writeNat_ne_nil (k : Nat) : writeNat k ≠ [] := by
  cases k with
  | zero => simp [writeNat]
  | succ k => simp [writeNat]

end Codec

/-- A code that refuses some values: nothing is written for them. -/
structure PartialCodec (α : Type) where
  write : α → Option (List UInt8)
  read : List UInt8 → Option (α × List UInt8)
  read_write : ∀ a bs, write a = some bs → ∀ rest, read (bs ++ rest) = some (a, rest)
  read_nil : read [] = none

namespace PartialCodec

variable {α β : Type}

/-- The values that a code for `β` can represent. -/
def via (b : Codec β) (hb : b.read [] = none) (rep : α → Option β) (abs : β → α)
    (h : ∀ a x, rep a = some x → abs x = a) : PartialCodec α where
  write a := (rep a).map b.write
  read bs := (b.read bs).map fun (x, r) => (abs x, r)
  read_write a bs hw rest := by
    obtain ⟨x, hx, rfl⟩ := Option.map_eq_some_iff.mp hw
    simp [b.read_write, h a x hx]
  read_nil := by simp [hb]

/-- Reading what was written: the value if the code took it, and a failure otherwise. -/
theorem read_getD_write (a : PartialCodec α) (x : α) :
    a.read ((a.write x).getD []) = (a.write x).map fun _ => (x, []) := by
  cases h : a.write x with
  | none => exact a.read_nil
  | some bs =>
    have hread := a.read_write x bs h []
    rw [List.append_nil] at hread
    simp [hread]

end PartialCodec

end RaftImplementation.Library
