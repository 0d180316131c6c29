import Mathlib.Data.Nat.Bitwise
import Mathlib.Algebra.BigOperators.Group.List.Basic

/-!
# Bit fields

A number laid out as fields, the first one in the highest bits. Of a value only
the low bits that its field has room for are stored. A field may be cut in two
and a group of fields is itself one, which is how fields that straddle bytes are
put together.
-/

namespace BitFields

/-- The fields of a layout with their values: pairs of width and value. -/
abbrev Fields := List (Nat × Nat)

def width (fs : Fields) : Nat := (fs.map Prod.fst).sum

def pack : Fields → Nat
  | [] => 0
  | (w, v) :: rest => v % 2 ^ w * 2 ^ width rest + pack rest

/-- The values of fields of given widths. -/
def unpack : List Nat → Nat → List Nat
  | [], _ => []
  | w :: rest, x => x / 2 ^ rest.sum % 2 ^ w :: unpack rest x

@[simp] theorem width_nil : width [] = 0 := rfl

@[simp] theorem width_cons : width ((w, v) :: rest) = w + width rest := List.sum_cons

theorem width_append (fs gs : Fields) : width (fs ++ gs) = width fs + width gs := by
  simp [width]

theorem pack_cons : pack ((w, v) :: rest) = v % 2 ^ w * 2 ^ width rest + pack rest := rfl

@[simp] theorem pack_singleton : pack [(w, v)] = v % 2 ^ w := by simp [pack]

theorem pack_lt (fs : Fields) : pack fs < 2 ^ width fs := by
  induction fs with
  | nil => exact Nat.one_pos
  | cons f rest ih =>
    obtain ⟨w, v⟩ := f
    have hv : v % 2 ^ w + 1 ≤ 2 ^ w := Nat.mod_lt _ (Nat.two_pow_pos w)
    calc pack ((w, v) :: rest)
        < v % 2 ^ w * 2 ^ width rest + 2 ^ width rest := Nat.add_lt_add_left ih _
      _ = (v % 2 ^ w + 1) * 2 ^ width rest := by rw [Nat.add_mul, Nat.one_mul]
      _ ≤ 2 ^ w * 2 ^ width rest := Nat.mul_le_mul_right _ hv
      _ = 2 ^ width ((w, v) :: rest) := by rw [width_cons, Nat.pow_add]

theorem pack_append (fs gs : Fields) :
    pack (fs ++ gs) = pack fs * 2 ^ width gs + pack gs := by
  induction fs with
  | nil => simp [pack]
  | cons f rest ih =>
    obtain ⟨w, v⟩ := f
    rw [List.cons_append, pack_cons, pack_cons, ih, width_append, Nat.pow_add, Nat.add_mul,
      Nat.mul_assoc, Nat.add_assoc]

theorem pack_group (hw : w = width fs) (hv : v = pack fs) (rest : Fields) :
    pack ((w, v) :: rest) = pack (fs ++ rest) := by
  rw [pack_cons, pack_append, hw, hv, Nat.mod_eq_of_lt (pack_lt fs)]

/-- Two neighbouring pieces of a value are one field. -/
theorem pack_join (m n v : Nat) (rest : Fields) :
    pack ((m, v / 2 ^ n) :: (n, v) :: rest) = pack ((m + n, v) :: rest) := by
  have hv : v % 2 ^ (m + n) = v % 2 ^ n + 2 ^ n * (v / 2 ^ n % 2 ^ m) := by
    rw [Nat.add_comm m n, Nat.pow_add, Nat.mod_mul]
  rw [pack_cons, pack_cons, pack_cons, width_cons, Nat.pow_add, hv, Nat.add_mul, ← Nat.add_assoc,
    ← Nat.mul_assoc, Nat.mul_comm (2 ^ n), Nat.add_comm (v % 2 ^ n * _)]

/-- A value cut into pieces of given widths. -/
def cut : List Nat → Nat → Fields
  | [], _ => []
  | w :: rest, v => (w, v / 2 ^ rest.sum) :: cut rest v

@[simp] theorem width_cut (ws : List Nat) (v : Nat) : width (cut ws v) = ws.sum := by
  induction ws with
  | nil => rfl
  | cons w rest ih => rw [cut, width_cons, ih, List.sum_cons]

theorem pack_cut (ws : List Nat) (v : Nat) (rest : Fields) :
    pack (cut ws v ++ rest) = pack ((ws.sum, v) :: rest) := by
  induction ws with
  | nil => simp [cut, pack, Nat.mod_one]
  | cons w ws ih =>
    rw [List.sum_cons, ← pack_join, cut, List.cons_append, pack_cons, pack_cons, ih, width_append,
      width_cut, width_cons]

theorem pack_pieces (fs : List (List Nat × Nat)) :
    pack (fs.flatMap fun f => cut f.1 f.2) = pack (fs.map fun f => (f.1.sum, f.2)) := by
  have hwidth (fs : List (List Nat × Nat)) :
      width (fs.flatMap fun f => cut f.1 f.2) = width (fs.map fun f => (f.1.sum, f.2)) := by
    induction fs with
    | nil => rfl
    | cons f rest ih =>
      rw [List.flatMap_cons, width_append, width_cut, ih, List.map_cons, width_cons]
  induction fs with
  | nil => rfl
  | cons f rest ih =>
    rw [List.flatMap_cons, pack_cut, pack_cons, ih, hwidth, List.map_cons, pack_cons]

/-- A value shifted over another one: what does not fit below is or-ed into the field above. -/
theorem shift_or (m n : Nat) (hhi : (hi ||| lo >>> n) % 2 ^ m = a % 2 ^ m)
    (hlo : lo % 2 ^ n = b % 2 ^ n) : (hi <<< n ||| lo) % 2 ^ (m + n) = pack [(m, a), (n, b)] := by
  have hlow : (hi <<< n ||| lo) % 2 ^ n = lo % 2 ^ n := by
    rw [Nat.or_mod_two_pow, Nat.shiftLeft_eq, Nat.mul_mod_left, Nat.zero_or]
  have hhigh : (hi <<< n ||| lo) / 2 ^ n = hi ||| lo >>> n := by
    rw [← Nat.shiftRight_eq_div_pow, Nat.shiftRight_or_distrib, Nat.shiftLeft_shiftRight]
  rw [Nat.add_comm m n, Nat.pow_add, Nat.mod_mul, hlow, hhigh, hhi, hlo]
  simp [pack, Nat.mul_comm, Nat.add_comm]

/-- A value shifted over one that fits below. -/
theorem shift_or_of_lt (m n : Nat) (h : lo < 2 ^ n) (hhi : hi % 2 ^ m = a % 2 ^ m)
    (hlo : lo % 2 ^ n = b % 2 ^ n) : (hi <<< n ||| lo) % 2 ^ (m + n) = pack [(m, a), (n, b)] := by
  refine shift_or m n ?_ hlo
  rw [Nat.shiftRight_eq_div_pow, Nat.div_eq_of_lt h, Nat.or_zero, hhi]

theorem unpack_pack (fs : Fields) :
    unpack (fs.map Prod.fst) (pack fs) = fs.map fun f => f.2 % 2 ^ f.1 := by
  suffices h : ∀ above, unpack (fs.map Prod.fst) (above * 2 ^ width fs + pack fs) =
      fs.map fun f => f.2 % 2 ^ f.1 by
    simpa using h 0
  induction fs with
  | nil => exact fun _ => rfl
  | cons f rest ih =>
    intro above
    obtain ⟨w, v⟩ := f
    have hsplit : above * 2 ^ width ((w, v) :: rest) + pack ((w, v) :: rest) =
        (above * 2 ^ w + v % 2 ^ w) * 2 ^ width rest + pack rest := by
      rw [width_cons, pack_cons, Nat.pow_add, Nat.add_mul, Nat.mul_assoc, Nat.add_assoc]
    have hvalue : ((above * 2 ^ w + v % 2 ^ w) * 2 ^ width rest + pack rest) / 2 ^ width rest %
        2 ^ w = v % 2 ^ w := by
      rw [Nat.mul_comm _ (2 ^ width rest), Nat.mul_add_div (Nat.two_pow_pos _),
        Nat.div_eq_of_lt (pack_lt rest), Nat.add_zero, Nat.mul_comm, Nat.mul_add_mod, Nat.mod_mod]
    rw [hsplit]
    exact List.cons_eq_cons.mpr ⟨hvalue, ih _⟩

-- ---------------------------------------------------------------------------
-- Bytes
-- ---------------------------------------------------------------------------

/-- The number a list of bytes stands for, most significant byte first. -/
def word (bytes : List UInt8) : Nat := pack (bytes.map fun b => (8, b.toNat))

/-- Bytes that each hold a group of fields hold all the fields. -/
theorem word_eq_pack {xs : List Nat} {groups : List Fields}
    (h : List.Forall₂ (fun x fs => width fs = 8 ∧ x % 2 ^ 8 = pack fs) xs groups) :
    word (xs.map UInt8.ofNat) = pack groups.flatten := by
  have hwidth : width ((xs.map UInt8.ofNat).map fun b => (8, b.toNat)) = width groups.flatten := by
    induction h with
    | nil => rfl
    | cons hx _ ih =>
      rw [List.flatten_cons, width_append, ← ih, hx.1]
      rfl
  induction h with
  | nil => rfl
  | @cons x fs xs groups hx _ ih =>
    have hbyte : (UInt8.ofNat x).toNat = pack fs := by rw [UInt8.toNat_ofNat', hx.2]
    have hrest : width ((xs.map UInt8.ofNat).map fun b => (8, b.toNat)) = width groups.flatten := by
      simpa [width_append, hx.1] using hwidth
    rw [List.flatten_cons, List.map_cons, word, List.map_cons, pack_group hx.1.symm hbyte,
      pack_append, pack_append, hrest, ← ih hrest]
    rfl

/-- The fields that bytes hold in pieces are read from them. -/
theorem unpack_word (fs : Fields) {xs : List Nat} {groups : List Fields}
    (h : List.Forall₂ (fun x fs => width fs = 8 ∧ x % 2 ^ 8 = pack fs) xs groups)
    (hfs : pack groups.flatten = pack fs) :
    unpack (fs.map Prod.fst) (word (xs.map UInt8.ofNat)) = fs.map fun f => f.2 % 2 ^ f.1 := by
  rw [word_eq_pack h, hfs, unpack_pack]

end BitFields
