import Switcheck.Sync.Wire

/-!
# The lines of the decoder

`upload-to-pskreporter` reads a file with `fgets` and from each line a time, two numbers of either
kind, a call sign and a grid locator. A string is its bytes without the zero at its end.
-/

namespace Switcheck

open Sync (Byte)

namespace PskReporter

/-- The fields of `struct tm` that the format of `read_time` sets. -/
structure Tm where
  year : Int
  mon : Int
  mday : Int
  hour : Int
  min : Int
  sec : Int

/-- What C libraries do not agree on to the byte: `strptime` with the format of `read_time`, how
many bytes `strtod` takes, and `timegm`. The values that `strtod` returns are not used. -/
structure CLibrary where
  strptime : List Byte → Option (List Byte × Tm)
  strtod : List Byte → Nat
  timegm : Tm → Int

def isspace (c : Byte) : Bool := c = 32 || (9 ≤ c && c ≤ 13)

def isdigit (c : Byte) : Bool := 48 ≤ c && c ≤ 57

/-- The value in base ten, kept within a `long` of 32 bits, and how many bytes it takes. -/
def strtol (src : List Byte) : Int × Nat :=
  let spaces := (src.takeWhile isspace).length
  let sign := if (src.drop spaces).head? = some 43 ∨ (src.drop spaces).head? = some 45 then 1 else 0
  let digits := (src.drop (spaces + sign)).takeWhile isdigit
  let value : Int := digits.foldl (fun value c => 10 * value + (c.toNat - 48)) 0
  let signed := if (src.drop spaces).head? = some 45 then -value else value
  if digits = [] then (0, 0)
  else (max (-2147483648) (min signed 2147483647), spaces + sign + digits.length)

def readInt (src : List Byte) : Option (List Byte × BitVec 32) :=
  let (value, size) := strtol src
  if size ≠ 0 then some (src.drop size, BitVec.ofInt 32 value) else none

def readDbl (library : CLibrary) (src : List Byte) : Option (List Byte) :=
  let size := library.strtod src
  if size ≠ 0 then some (src.drop size) else none

def readTime (library : CLibrary) (src : List Byte) : Option (List Byte × Tm) :=
  library.strptime src

/-- A string of at most `width` bytes up to the next space, as for `%s`. -/
def scanS (width : Nat) (src : List Byte) : List Byte × List Byte :=
  let src := src.dropWhile isspace
  let token := (src.take width).takeWhile fun c => !isspace c
  (token, src.drop token.length)

/-- The format `"%13s %4s"`. A string that is not there leaves its array empty, and the result is
never zero: it is `EOF` where there is no string at all. -/
def sscanf (src : List Byte) : List Byte × List Byte :=
  let (call, src) := scanS 13 src
  (call, (scanS 4 src).1)

/-- What a reception record tells of a line; `call` and `grid` fit their arrays. -/
structure Reception where
  call : List Byte
  grid : List Byte
  freq : BitVec 32
  snr : BitVec 8
  time : BitVec 32
  callSize : call.length ≤ 13
  gridSize : grid.length ≤ 4
  deriving DecidableEq

theorem scanS_size (width : Nat) (src : List Byte) : (scanS width src).1.length ≤ width := by
  unfold scanS
  exact Nat.le_trans (List.takeWhile_sublist _).length_le (List.length_take_le _ _)

/-- A line, which ends at its first zero if it has one. -/
def readLine (library : CLibrary) (line : List Byte) : Option Reception := do
  let src := line.takeWhile (· ≠ 0)
  let (src, tm) ← readTime library src
  let src ← readDbl library src
  let (src, snr) ← readInt src
  let src ← readDbl library src
  let (src, freq) ← readInt src
  some {
    call := (sscanf src).1
    grid := (sscanf src).2
    freq := freq
    snr := snr.setWidth 8
    time := BitVec.ofInt 32 (library.timegm tm + 15)
    callSize := scanS_size 13 src
    gridSize := scanS_size 4 (scanS 13 src).2
  }

/-- The bytes up to a newline, at most `room` of them, and those after. -/
def fgets : Nat → List Byte → List Byte × List Byte
  | 0, file => ([], file)
  | _ + 1, [] => ([], [])
  | room + 1, c :: file =>
    if c = 10 then ([c], file)
    else
      let (line, rest) := fgets room file
      (c :: line, rest)

/-- What `fgets(line, 64, fp)` returns until the end of the file. -/
def linesOf : Nat → List Byte → List (List Byte)
  | 0, _ => []
  | fuel + 1, file =>
    match file with
    | [] => []
    | c :: file =>
      let (line, rest) := fgets 63 (c :: file)
      line :: linesOf fuel rest

/-- Every turn takes a byte, so that the length of the file is enough. -/
def lines (file : List Byte) : List (List Byte) := linesOf file.length file

def accepted (library : CLibrary) (file : List Byte) : List Reception :=
  (lines file).filterMap (readLine library)

variable {file : List Byte}

theorem fgets_append (room : Nat) (file : List Byte) :
    (fgets room file).1 ++ (fgets room file).2 = file := by
  fun_induction fgets room file with
  | case1 => rfl
  | case2 => rfl
  | case3 => rfl
  | case4 room c file other line rest result ih =>
    rw [result] at ih
    exact congrArg (c :: ·) ih

theorem fgets_fits (room : Nat) (file : List Byte) : (fgets room file).1.length ≤ room := by
  fun_induction fgets room file with
  | case1 => exact Nat.le_refl 0
  | case2 => exact Nat.zero_le _
  | case3 => exact Nat.succ_le_succ (Nat.zero_le _)
  | case4 room c file other line rest result ih =>
    rw [result] at ih
    exact Nat.succ_le_succ ih

theorem fgets_takes {room : Nat} {c : Byte} : (fgets (room + 1) (c :: file)).1 ≠ [] := by
  rw [fgets]
  split <;> exact List.cons_ne_nil _ _

theorem linesOf_flatten {fuel : Nat} (enough : file.length ≤ fuel) :
    (linesOf fuel file).flatten = file := by
  induction fuel generalizing file with
  | zero => rw [List.eq_nil_of_length_eq_zero (Nat.le_zero.mp enough), linesOf, List.flatten_nil]
  | succ fuel ih =>
    cases file with
    | nil => rfl
    | cons c file =>
      have whole := fgets_append 63 (c :: file)
      have takes : (fgets 63 (c :: file)).1 ≠ [] := fgets_takes
      have sizes := congrArg List.length whole
      have some := List.length_pos_iff.mpr takes
      rw [List.length_append] at sizes
      rw [linesOf, List.flatten_cons, ih (by omega), whole]

/-- The lines are the whole file, and each fits `line` with the zero at its end. -/
theorem lines_whole (file : List Byte) :
    (lines file).flatten = file ∧ ∀ line ∈ lines file, line.length < 64 := by
  refine ⟨linesOf_flatten (Nat.le_refl _), ?_⟩
  unfold lines
  generalize file.length = fuel
  induction fuel generalizing file with
  | zero => exact List.forall_mem_nil _
  | succ fuel ih =>
    cases file with
    | nil => exact List.forall_mem_nil _
    | cons c file =>
      refine List.forall_mem_cons.mpr ⟨?_, ih _⟩
      exact Nat.lt_succ_of_le (fgets_fits 63 (c :: file))

end PskReporter

end Switcheck
