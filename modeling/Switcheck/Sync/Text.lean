import Mathlib.Data.Nat.Digits.Defs
import Switcheck.Sync.Wire

/-!
# Numbers as text

Decimal numbers as `printf` writes them, in fields that end at a separator, and what reads them
back.
-/

namespace Switcheck.Sync

def space : Byte := 32

def minus : Byte := 45

def digit (d : Nat) : Byte := BitVec.ofNat 8 (48 + d)

def isDigit (c : Byte) : Bool := 48 ≤ c && c ≤ 57

/-- `%u`. -/
def decimal (n : Nat) : List Byte :=
  if n = 0 then [digit 0] else (Nat.digits 10 n).reverse.map digit

/-- `%d`. -/
def signed : Int → List Byte
  | .ofNat n => decimal n
  | .negSucc n => minus :: decimal (n + 1)

/-- A field of at least `width` characters. -/
def padded (width : Nat) (field : List Byte) : List Byte :=
  List.replicate (width - field.length) space ++ field

def natOf (field : List Byte) : Option Nat :=
  if field ≠ [] ∧ field.all isDigit then
    some (field.foldl (fun value c => 10 * value + (c.toNat - 48)) 0)
  else none

/-- Blanks, a sign, digits. -/
def intOf (field : List Byte) : Option Int :=
  match field.dropWhile (· = space) with
  | [] => none
  | c :: rest =>
    if c = minus then (natOf rest).map fun n => -(n : Int) else (natOf (c :: rest)).map Int.ofNat

/-- The bytes before the first `stop`, which is left out. -/
def readUpTo (stop : Byte) : Reader (List Byte) := fun bytes =>
  match bytes.dropWhile (· ≠ stop) with
  | [] => none
  | _ :: rest => some (bytes.takeWhile (· ≠ stop), rest)

def readIntUpTo (stop : Byte) : Reader Int := fun bytes => do
  let (field, rest) ← readUpTo stop bytes
  let value ← intOf field
  some (value, rest)

/-- What a number is written with: blanks, a sign and digits. -/
def Numeric (c : Byte) : Prop := c = space ∨ c = minus ∨ isDigit c = true

instance (c : Byte) : Decidable (Numeric c) := inferInstanceAs (Decidable (_ ∨ _))

theorem readUpTo_append {stop : Byte} {field : List Byte} (clear : stop ∉ field)
    (rest : List Byte) : readUpTo stop (field ++ stop :: rest) = some (field, rest) := by
  have other : ∀ c ∈ field, decide (c ≠ stop) = true := fun c member =>
    decide_eq_true fun same => clear (same ▸ member)
  rw [readUpTo, List.dropWhile_append_of_pos other, List.takeWhile_append_of_pos other]
  simp

theorem isDigit_digit {d : Nat} (low : d < 10) : isDigit (digit d) = true := by
  have all : ∀ d < 10, isDigit (digit d) = true := by decide
  exact all d low

theorem digit_toNat {d : Nat} (low : d < 10) : (digit d).toNat - 48 = d := by
  rw [digit, BitVec.toNat_ofNat]
  omega

theorem decimal_isDigit {n : Nat} : ∀ c ∈ decimal n, isDigit c = true := by
  unfold decimal
  split
  · decide
  · intro c member
    obtain ⟨d, inside, rfl⟩ := List.mem_map.mp member
    exact isDigit_digit (Nat.digits_lt_base (by decide) (List.mem_reverse.mp inside))

theorem decimal_ne_nil (n : Nat) : decimal n ≠ [] := by
  unfold decimal
  split
  · exact List.cons_ne_nil _ _
  · rename_i some
    simpa [Nat.digits_eq_nil_iff_eq_zero] using some

theorem foldl_digits (ds : List Nat) (low : ∀ d ∈ ds, d < 10) :
    (ds.reverse.map digit).foldl (fun value c => 10 * value + (c.toNat - 48)) 0 =
      Nat.ofDigits 10 ds := by
  induction ds with
  | nil => rfl
  | cons d ds ih =>
    obtain ⟨here, later⟩ := List.forall_mem_cons.mp low
    rw [List.reverse_cons, List.map_append, List.foldl_append, ih later, List.map_singleton,
      List.foldl_cons, List.foldl_nil, digit_toNat here, Nat.ofDigits_cons, Nat.add_comm]

theorem natOf_decimal (n : Nat) : natOf (decimal n) = some n := by
  rw [natOf, if_pos ⟨decimal_ne_nil n, List.all_eq_true.mpr decimal_isDigit⟩, decimal]
  split
  · rename_i zero
    rw [zero]
    rfl
  · rw [foldl_digits _ fun d member => Nat.digits_lt_base (by decide) member,
      Nat.ofDigits_digits]

theorem isDigit_ne {c : Byte} (digit : isDigit c = true) : c ≠ space ∧ c ≠ minus := by
  constructor
  · rintro rfl
    cases digit
  · rintro rfl
    cases digit

/-- The blanks in front of a number do not matter. -/
theorem intOf_blanks (blanks : Nat) (field : List Byte) :
    intOf (List.replicate blanks space ++ field) = intOf field := by
  have skipped : ∀ c ∈ List.replicate blanks space, decide (c = space) = true := fun c member =>
    decide_eq_true (List.eq_of_mem_replicate member)
  rw [intOf, intOf, List.dropWhile_append_of_pos skipped]

theorem intOf_signed (width : Nat) (value : Int) :
    intOf (padded width (signed value)) = some value := by
  rw [padded, intOf_blanks]
  cases value with
  | ofNat n =>
    rw [signed]
    obtain ⟨c, rest, whole⟩ := List.exists_cons_of_ne_nil (decimal_ne_nil n)
    obtain ⟨visible, positive⟩ := isDigit_ne (decimal_isDigit c (whole ▸ List.mem_cons_self))
    rw [whole, intOf, List.dropWhile_cons_of_neg (by simp [visible])]
    dsimp only
    rw [if_neg positive, ← whole, natOf_decimal]
    rfl
  | negSucc n =>
    rw [signed, intOf, List.dropWhile_cons_of_neg (by decide)]
    dsimp only
    rw [if_pos rfl, natOf_decimal]
    rfl

theorem numeric_signed (width : Nat) (value : Int) : ∀ c ∈ padded width (signed value), Numeric c := by
  have digits (n : Nat) : ∀ c ∈ decimal n, Numeric c := fun c member =>
    .inr (.inr (decimal_isDigit c member))
  intro c member
  rcases List.mem_append.mp member with blank | inside
  · exact .inl (List.eq_of_mem_replicate blank)
  · cases value with
    | ofNat n => exact digits n c inside
    | negSucc n =>
      rcases List.mem_cons.mp inside with sign | inside
      · exact .inr (.inl sign)
      · exact digits _ c inside

/-- A number in a field is read back up to its separator. -/
theorem readIntUpTo_signed {stop : Byte} (separates : ¬ Numeric stop) (width : Nat) (value : Int)
    (rest : List Byte) :
    readIntUpTo stop (padded width (signed value) ++ stop :: rest) = some (value, rest) := by
  have clear : stop ∉ padded width (signed value) := fun member =>
    separates (numeric_signed width value stop member)
  rw [readIntUpTo, readUpTo_append clear]
  simp [intOf_signed]

end Switcheck.Sync
