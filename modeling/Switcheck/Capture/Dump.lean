import Switcheck.Adc.Decode
import Switcheck.Capture.EndToEnd
import Switcheck.Sync.Text

/-!
# The dump of `adc.c`

When the position of the writer has moved, `adc.c` decodes the words of the buffer into a file of
four columns. The words come from the samples through the stream port, the FIFO and the memory.
-/

namespace Switcheck

open Sync Circuit

namespace Adc

variable {w : Nat} {past : List (Tick w)} {s : Adc w}

def sending (past : List (Tick w)) : List (Tick w) := past.filter fun c => decide (Sends c)

theorem sending_snoc (past : List (Tick w)) (c : Tick w) :
    sending (past ++ [c]) = sending past ++ if Sends c then [c] else [] := by
  rw [sending, List.filter_append, sending, List.filter_singleton]
  split <;> simp_all

/-- A word is presented for each clock that sends one, if the trigger is reset between series. -/
theorem presented_sending (run : (circuit w).Run past s) (idle : Held PulseWhenIdle past) :
    presented past s = (sending past).map fun c =>
      (c.regs.seriesEnds c.pins, (posedge true c.regs c.pins).axisDataReg) := by
  refine run.invariant (P := fun past s => presented past s = (sending past).map fun c =>
    (c.regs.seriesEnds c.pins, (posedge true c.regs c.pins).axisDataReg)) ?_ ?_
    (run_silentPulse run idle)
  · rintro s ⟨s₀, i, rfl⟩
    rfl
  · intro past s i _ same silent
    show presented (past ++ [⟨s, i⟩]) (posedge true s i) = _
    rw [sending_snoc, List.map_append, ← same]
    cases trigger : i.nresetTrigger with
    | false =>
      rw [presented_silent (posedge_low_word trigger (silent trigger)),
        if_neg fun sends => by simp [Sends, trigger] at sends]
      exact (List.append_nil _).symm
    | true =>
      cases on : s.triggerNow i with
      | true =>
        rw [presented_send past trigger on, if_pos ⟨trigger, on⟩]
        rfl
      | false =>
        rw [presented_silent (posedge_idle trigger on).1,
          if_neg fun sends => by simp [Sends, on] at sends]
        exact (List.append_nil _).symm

theorem split_of_filter {β : Type} {f : β → Bool} {xs : List β} {k : Nat} {x : β}
    (found : (xs.filter f)[k]? = some x) :
    ∃ before after, xs = before ++ x :: after ∧ f x = true ∧ (before.filter f).length = k := by
  induction xs generalizing k with
  | nil => simp at found
  | cons y xs ih =>
    cases here : f y with
    | false =>
      rw [List.filter_cons_of_neg (by simp [here])] at found
      obtain ⟨before, after, rfl, yes, length⟩ := ih found
      exact ⟨y :: before, after, rfl, yes, by rw [List.filter_cons_of_neg (by simp [here]), length]⟩
    | true =>
      rw [List.filter_cons_of_pos here] at found
      cases k with
      | zero =>
        obtain rfl : y = x := by simpa using found
        exact ⟨[], xs, rfl, here, rfl⟩
      | succ k =>
        obtain ⟨before, after, rfl, yes, length⟩ := ih (by simpa using found)
        exact ⟨y :: before, after, rfl, yes, by
          rw [List.filter_cons_of_pos here, List.length_cons, length]⟩

/-- What a clock sends: the tag, and the two samples captured last, in the width of a field. -/
structure SentExact (before : List (Tick w)) (c : Tick w) (r : Record) : Prop where
  sends : Sends c
  type : r.type = (c.regs.wordTag c.pins).setWidth 8
  a : r.a.toInt = (exactValue (pairAgo before 0).a c.pins.adcMultBeforeBiasA c.pins.biasA
    c.pins.adcMultAfterBiasA).bmod (2 ^ 15)
  b : r.b.toInt = (exactValue (pairAgo before 0).b c.pins.adcMultBeforeBiasB c.pins.biasB
    c.pins.adcMultAfterBiasB).bmod (2 ^ 15)

/-- The `k`-th word presented, decoded, is what the `k`-th clock that sends has sent. -/
theorem presented_exact (width : w ≤ 16) (run : (circuit w).Run past s)
    (idle : Held PulseWhenIdle past) {k : Nat} {word : BitVec 32}
    (found : ((presented past s).map Prod.snd)[k]? = some word) :
    ∃ before c after, past = before ++ c :: after ∧ (sending before).length = k ∧
      SentExact before c (decode word) := by
  rw [presented_sending run idle, List.map_map, List.getElem?_map, Option.map_eq_some_iff] at found
  obtain ⟨c, found, rfl⟩ := found
  obtain ⟨before, after, rfl, sends, length⟩ := split_of_filter found
  have sends : Sends c := by simpa using sends
  have pipeline := run_pipeline run.append
  have fields := congrArg decode (word_eq (s := c.regs) (i := c.pins) sends)
  rw [tagged, decode_fields] at fields
  have exactA := (fieldExact width c.regs.intDatAReg c.pins.adcMultBeforeBiasA c.pins.biasA
    c.pins.adcMultAfterBiasA).reduced
  have exactB := (fieldExact width c.regs.intDatBReg c.pins.adcMultBeforeBiasB c.pins.biasB
    c.pins.adcMultAfterBiasB).reduced
  refine ⟨before, c, after, rfl, length, ⟨sends, ?_, ?_, ?_⟩⟩
  all_goals
    dsimp only [Function.comp]
    rw [fields]
  · rw [← pipeline.datA]
    exact exactA
  · rw [← pipeline.datB]
    exact exactB

end Adc

namespace Capture

open RamWriter (writer32)

variable {w depth : Nat} {limiter : BitVec 8} {minAddr : BitVec 32}
  {past : List (Tick w (writer32 16 depth))} {s : Capture w (writer32 16 depth)}

/-! ### The memory -/

def wordBytes (word : BitVec 32) : List Byte :=
  [word.extractLsb' 0 8, word.extractLsb' 8 8, word.extractLsb' 16 8, word.extractLsb' 24 8]

def beatBytes (beat : BitVec 64) : List Byte :=
  wordBytes (beat.extractLsb' 0 32) ++ wordBytes (beat.extractLsb' 32 32)

/-- The address at which the slave writes the `k`-th beat it takes. -/
def placeOf (past : List (Tick w (writer32 16 depth))) (k : Nat) : Nat :=
  ((RamWriter.target (past.map writerClock) k).getD 0).toNat

def bytesOf (past : List (Tick w (writer32 16 depth))) (k : Nat) : List Byte :=
  beatBytes (((wBeats past)[k]?.map Prod.snd).getD 0)

/-- The memory with the beats that the slave has taken. -/
def ram (memory : Nat → Byte) (past : List (Tick w (writer32 16 depth))) : Nat → Byte :=
  (List.range (wBeats past).length).foldl (fun m k => copy m (placeOf past k) (bytesOf past k))
    memory

/-- `buf32[i]`. -/
def buf32 (minAddr : BitVec 32) (memory : Nat → Byte) (i : Nat) : BitVec 32 :=
  let a := minAddr.toNat + 4 * i
  memory (a + 3) ++ memory (a + 2) ++ memory (a + 1) ++ memory a

theorem wordBytes_append (word : BitVec 32) :
    (word.extractLsb' 24 8 ++ word.extractLsb' 16 8 ++ word.extractLsb' 8 8 ++
      word.extractLsb' 0 8 : BitVec 32) = word := by
  refine BitVec.eq_of_getLsbD_eq fun k low => ?_
  simp only [BitVec.getLsbD_append, BitVec.getLsbD_extractLsb']
  grind

theorem buf32_eq {memory : Nat → Byte} {i : Nat} {word : BitVec 32}
    (bytes : stored memory (minAddr.toNat + 4 * i) 4 = wordBytes word) :
    buf32 minAddr memory i = word := by
  obtain ⟨first, second, third, fourth⟩ : _ ∧ _ ∧ _ ∧ _ := by
    simpa [stored, wordBytes, List.range_succ] using bytes
  rw [buf32, first, second, third, fourth, wordBytes_append]

/-- Each beat that the slave has taken, with the words that it carries and its place. -/
theorem run_beat (low : 5 ≤ limiter.toNat) (high : limiter.toNat ≤ 21)
    (run : (circuit w (writer32 16 depth)).Run past s)
    (set : Held (Configured limiter minAddr) past) (served : Held Served past) {k : Nat}
    {beat : Bool × BitVec 64} (found : (wBeats past)[k]? = some beat) :
    (RamWriter.axis32.words ((emitted past).map Prod.snd))[k]? = some beat.2 ∧
      RamWriter.target (past.map writerClock) k =
        some (minAddr + BitVec.ofNat 32 (8 * (k % 2 ^ 20))) := by
  have service := run_fullService low high run set served
  have full := (RamWriter.run_fullInv (run_writer run) service).1
  have sound := RamWriter.run_noUnderflow (run_writer run) service
  rw [← accepted_of_served (held_and.mp served).2]
  exact full.contiguous (run_writer run) sound k beat found

/-- While the writer has not come round, the words of the buffer are those emitted. -/
theorem run_buf32 (low : 5 ≤ limiter.toNat) (high : limiter.toNat ≤ 21)
    (fits : minAddr.toNat + 2 ^ 23 ≤ 2 ^ 32)
    (run : (circuit w (writer32 16 depth)).Run past s)
    (set : Held (Configured limiter minAddr) past) (served : Held Served past)
    (once : (wBeats past).length ≤ 2 ^ 20) (memory : Nat → Byte) {i : Nat}
    (inside : i < 2 * (wBeats past).length) :
    ((emitted past).map Prod.snd)[i]? = some (buf32 minAddr (ram memory past) i) := by
  have place (k : Nat) (inside : k < (wBeats past).length) :
      placeOf past k = minAddr.toNat + 8 * k := by
    have found := (run_beat low high run set served (List.getElem?_eq_getElem inside)).2
    rw [placeOf, found, Option.getD_some, BitVec.toNat_add, BitVec.toNat_ofNat]
    omega
  have size (k : Nat) : (bytesOf past k).length = 8 := rfl
  have half : i / 2 < (wBeats past).length := by omega
  have here := List.getElem?_eq_getElem half
  have word := axis32_half (run_beat low high run set served here).1 (i % 2)
    (Nat.mod_lt i (by decide))
  rw [Nat.div_add_mod] at word
  rw [word]
  have self := @stored_foldl_copy_self memory (placeOf past) (bytesOf past) _ (i / 2) half
    fun j low other => by
      rw [place _ half, place j low, size, size]
      omega
  rw [size, place _ half, show bytesOf past (i / 2) = beatBytes (wBeats past)[i / 2].2 by
    rw [bytesOf, here]; rfl, show 8 = 4 + 4 from rfl, stored_add] at self
  obtain ⟨lower, upper⟩ := List.append_inj self rfl
  refine congrArg some (buf32_eq ?_).symm
  rcases Nat.mod_two_eq_zero_or_one i with even | odd
  · rw [even, show 4 * i = 8 * (i / 2) by omega]
    exact lower
  · rw [odd, show minAddr.toNat + 4 * i = minAddr.toNat + 8 * (i / 2) + 4 by omega]
    exact upper

/-! ### The file -/

def bar : Byte := 124

def newline : Byte := 10

/-- `Ix|Type|A|B`. -/
def header : List Byte := [73, 120, bar, 84, 121, 112, 101, bar, 65, bar, 66]

structure Row where
  ix : Int
  type : Int
  a : Int
  b : Int
  deriving DecidableEq

/-- `%2d|%2u|%d|%d`, with a newline. -/
def Row.text (r : Row) : List Byte :=
  padded 2 (signed r.ix) ++ bar :: (padded 2 (signed r.type) ++ bar :: (padded 0 (signed r.a) ++
    bar :: (padded 0 (signed r.b) ++ [newline])))

def rowOf (i : Nat) (r : Adc.Record) : Row := ⟨i, r.type.toNat, r.a.toInt, r.b.toInt⟩

/-- The file of the words of `buf32`. -/
def dump (buf32 : Nat → BitVec 32) : List Byte :=
  header ++ newline :: ((List.range (65536 + 4)).map fun i =>
    rowOf i (Adc.decode (buf32 i))).flatMap Row.text

def readRow : Reader Row := fun bytes => do
  let (ix, bytes) ← readIntUpTo bar bytes
  let (type, bytes) ← readIntUpTo bar bytes
  let (a, bytes) ← readIntUpTo bar bytes
  let (b, bytes) ← readIntUpTo newline bytes
  some (⟨ix, type, a, b⟩, bytes)

/-- The rows under the header, if there is nothing else in the file. -/
def readTable (file : List Byte) : Option (List Row) := do
  let (_, bytes) ← readUpTo newline file
  let (table, left) := readMany readRow bytes.length bytes
  if left = [] then some table else none

theorem readRow_text (r : Row) (rest : List Byte) : readRow (r.text ++ rest) = some (r, rest) := by
  have barred : ¬ Numeric bar := by decide
  have ended : ¬ Numeric newline := by decide
  obtain ⟨ix, type, a, b⟩ := r
  simp only [Row.text, List.append_assoc, List.cons_append, List.nil_append, readRow,
    readIntUpTo_signed barred, readIntUpTo_signed ended, Option.bind_eq_bind, Option.bind_some]

/-- The file is read back as the rows of its words. -/
theorem readTable_dump (buf32 : Nat → BitVec 32) : readTable (dump buf32) =
    some ((List.range (65536 + 4)).map fun i => rowOf i (Adc.decode (buf32 i))) := by
  generalize whole : ((List.range (65536 + 4)).map fun i => rowOf i (Adc.decode (buf32 i))) = table
  have takes (r : Row) : 0 < r.text.length := by
    simp only [Row.text, List.length_append, List.length_cons]
    omega
  have ended : readRow [] = none := rfl
  have many := readMany_flatMap (fun r _ => readRow_text r) ended (length_le_flatMap takes table)
  rw [List.append_nil] at many
  have top : newline ∉ header := by decide
  rw [readTable, dump, whole, readUpTo_append top]
  simp only [Option.bind_eq_bind, Option.bind_some]
  rw [many]
  rfl

/-- The file that is written while the writer has not come round: each row that lies behind what the
slave has taken tells the tag and the samples of the clock that sent the word, exactly but for a
reduction to the width of a field. -/
theorem run_dumped (width : w ≤ 16) (low : 5 ≤ limiter.toNat) (high : limiter.toNat ≤ 21)
    (fits : minAddr.toNat + 2 ^ 23 ≤ 2 ^ 32)
    (run : (circuit w (writer32 16 depth)).Run past s)
    (set : Held (Configured limiter minAddr) past) (served : Held Served past)
    (once : (wBeats past).length ≤ 2 ^ 20) (memory : Nat → Byte) :
    ∃ table, readTable (dump (buf32 minAddr (ram memory past))) = some table ∧
      table.length = 65540 ∧
      ∀ i r, table[i]? = some r → i < 2 * (wBeats past).length →
        ∃ before c after record, past.map adcClock = before ++ c :: after ∧
          (Adc.sending before).length = i ∧ Adc.SentExact before c record ∧ r = rowOf i record := by
  refine ⟨_, readTable_dump _, by rw [List.length_map, List.length_range], ?_⟩
  intro i r found inside
  obtain ⟨k, there, rfl⟩ : ∃ k, (List.range (65536 + 4))[i]? = some k ∧
      rowOf k (Adc.decode (buf32 minAddr (ram memory past) k)) = r := by
    rwa [List.getElem?_map, Option.map_eq_some_iff] at found
  obtain ⟨_, rfl⟩ := List.getElem?_eq_some_iff.mp there
  rw [List.getElem_range] at *
  have word := run_buf32 low high fits run set served once memory inside
  have presented : ((Adc.presented (past.map adcClock) s.adc).map Prod.snd)[i]? =
      some (buf32 minAddr (ram memory past) i) := by
    rw [presented_adcClock, List.map_append]
    exact getElem?_mono (List.prefix_append _ _) word
  have idle : Held Adc.PulseWhenIdle (past.map adcClock) :=
    (held_map _ _ _).mpr (set.mono fun _ _ now => now.1)
  obtain ⟨before, c, after, split, count, exact'⟩ :=
    Adc.presented_exact width (run_adc run) idle presented
  exact ⟨before, c, after, _, split, count, exact', rfl⟩

/-- Three clocks of trigger reset, as when the program lets go of the ADC first. -/
def starting : CapturePins RamWriter.deployed :=
  { flowing 5 with adc := { Adc.quiet 5 with nresetTrigger := false } }

def flowed : List (Tick 14 RamWriter.deployed) :=
  (circuit 14 RamWriter.deployed).trace fresh
    (List.replicate 3 starting ++ List.replicate 52 (flowing 5))

theorem flowed_run : (circuit 14 RamWriter.deployed).Run flowed
    ((circuit 14 RamWriter.deployed).after fresh
      (List.replicate 3 starting ++ List.replicate 52 (flowing 5))) :=
  run_trace fresh_reset _

theorem flowed_set : Held (Configured 5 (0x10000000 : BitVec 32)) flowed := by
  have idle : Held (fun before c => Adc.PulseWhenIdle (before.map adcClock) (adcClock c)) flowed := by
    decide +kernel
  refine held_and.mpr ⟨idle, held_trace (circuit 14 RamWriter.deployed) fresh
    (Q := fun i => i.adc.limiter = 5 ∧ i.minAddr = (0x10000000 : BitVec 32) ∧
      i.cfgData = (65535 : BitVec 16)) fun i member => ?_⟩
  rcases List.mem_append.mp member with reset | flows
  · rw [List.eq_of_mem_replicate reset]
    exact ⟨rfl, rfl, rfl⟩
  · rw [List.eq_of_mem_replicate flows]
    exact ⟨rfl, rfl, rfl⟩

theorem flowed_count : (wBeats flowed).length = 16 := by decide +kernel

/-- A series of 32 words: there are rows of it in the file. -/
theorem run_dumped_flowing :
    ∃ table, readTable (dump (buf32 (0x10000000 : BitVec 32) (ram (fun _ => 0) flowed))) =
        some table ∧ table.length = 65540 ∧
      ∀ i r, table[i]? = some r → i < 32 →
        ∃ before c after record, flowed.map adcClock = before ++ c :: after ∧
          (Adc.sending before).length = i ∧ Adc.SentExact before c record ∧
          r = rowOf i record := by
  obtain ⟨table, read, length, rows⟩ := run_dumped (by decide) (by decide) (by decide) (by decide)
    flowed_run flowed_set (by decide +kernel) (by rw [flowed_count]; decide) (fun _ => 0)
  rw [flowed_count] at rows
  exact ⟨table, read, length, rows⟩

end Capture

end Switcheck
