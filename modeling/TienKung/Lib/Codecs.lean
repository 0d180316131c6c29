import Mathlib.Data.List.Basic

/-!
# Codecs of fixed size

A codec writes a value as a fixed number of bytes and reads it back from the
front of a list. That reading undoes writing is a field, so a codec that is
built from others is lossless by construction.
-/

variable {α β γ : Type*}

structure Codec (α : Type*) where
  size : Nat
  write : α → List UInt8
  read : List UInt8 → Option (α × List UInt8)
  length_write (a : α) : (write a).length = size
  read_write (a : α) (rest : List UInt8) : read (write a ++ rest) = some (a, rest)

namespace Codec

/-- The value of a list that is read to its end. -/
def whole (c : Codec α) (bytes : List UInt8) : Option α :=
  match c.read bytes with
  | some (a, []) => some a
  | _ => none

@[simp] theorem whole_write (c : Codec α) (a : α) : c.whole (c.write a) = some a := by
  have h := c.read_write a []
  rw [List.append_nil] at h
  rw [whole, h]

def byte : Codec UInt8 where
  size := 1
  write b := [b]
  read
    | [] => none
    | b :: rest => some (b, rest)
  length_write _ := rfl
  read_write _ _ := rfl

/-- A flag as a byte that is 0 or 1. -/
def flag : Codec Bool where
  size := 1
  write b := [b.toUInt8]
  read
    | [] => none
    | b :: rest => if b = 0 then some (false, rest) else if b = 1 then some (true, rest) else none
  length_write _ := rfl
  read_write b rest := by cases b <;> rfl

/-- One value after the other. -/
def append (c : Codec α) (d : Codec β) : Codec (α × β) where
  size := c.size + d.size
  write p := c.write p.1 ++ d.write p.2
  read bytes :=
    (c.read bytes).bind fun (a, rest) => (d.read rest).map fun (b, rest) => ((a, b), rest)
  length_write p := by rw [List.length_append, c.length_write, d.length_write]
  read_write p rest := by simp [List.append_assoc, c.read_write, d.read_write]

/-- A value written as another one that it can be rebuilt from. -/
def via (c : Codec β) (fields : α → β) (build : β → α) (h : ∀ a, build (fields a) = a) :
    Codec α where
  size := c.size
  write a := c.write (fields a)
  read bytes := (c.read bytes).map fun (b, rest) => (build b, rest)
  length_write a := c.length_write (fields a)
  read_write a rest := by simp [c.read_write, h]

end Codec
