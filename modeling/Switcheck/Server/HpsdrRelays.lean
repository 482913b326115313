import Switcheck.Server.HpsdrFilters
import Switcheck.Streams.AlexLink

/-!
# From the settings to the relays

The words that `alex_write` stores at `alex` go through the FIFO and `axis_alex` to the boards.
-/

namespace Switcheck

open Sync Circuit

namespace HpsdrControl

def alexWord : Effect → Option (BitVec 32)
  | .alex word => some word
  | _ => none

def alexWords (board : Board) (past : List Tick) : List (BitVec 32) :=
  past.flatMap fun c => (effects board c).filterMap alexWord

/-- What a word tells the board that listens to `tx`. -/
def line (tx : Bool) (word : BitVec 32) : Option (BitVec 16) :=
  if word.getLsbD (if tx then 17 else 16) then some (word.setWidth 16) else none

variable {board : Board} {past : List Tick} {s : HpsdrControl} {tx : Bool}

theorem written_eq (tx : Bool) (past : List Tick) :
    written (alexPort tx) board past = (alexWords board past).filterMap (line tx) := by
  have each (effect : Effect) : (alexWord effect).bind (line tx) = (alexPort tx).shows effect := by
    cases effect <;> rfl
  unfold written alexWords
  rw [List.filterMap_flatMap]
  refine List.flatMap_congr fun c _ => ?_
  rw [List.filterMap_filterMap]
  exact List.filterMap_congr fun effect _ => (each effect).symm

theorem getLastD_line (words : List (BitVec 32)) (word : BitVec 32) (tx : Bool) (old : BitVec 16) :
    ((words ++ [word]).filterMap (line tx)).getLastD old =
      if word.getLsbD (if tx then 17 else 16) then word.setWidth 16
      else (words.filterMap (line tx)).getLastD old := by
  rw [List.filterMap_append]
  cases taken : word.getLsbD (if tx then 17 else 16) with
  | false =>
    have none : line tx word = none := by rw [line, taken]; rfl
    rw [List.filterMap_cons_none none, List.filterMap_nil, List.append_nil]
    rfl
  | true =>
    have some : line tx word = some (word.setWidth 16) := by rw [line, taken]; rfl
    rw [List.filterMap_cons_some some, List.filterMap_nil]
    simp

/-- Each board keeps the last word that was for it. -/
theorem foldl_loaded (words : List (BitVec 32)) (relays : Relays) :
    (words.foldl Relays.loaded relays).rx = (words.filterMap (line false)).getLastD relays.rx ∧
      (words.foldl Relays.loaded relays).tx = (words.filterMap (line true)).getLastD relays.tx := by
  have low (word : BitVec 32) : word.extractLsb' 0 16 = word.setWidth 16 :=
    BitVec.eq_of_getLsbD_eq fun j inside => by simp [inside]
  induction words using List.reverseRecOn with
  | nil => exact ⟨rfl, rfl⟩
  | append_singleton words word ih =>
    rw [List.foldl_append, List.foldl_cons, List.foldl_nil, getLastD_line, getLastD_line, ← ih.1,
      ← ih.2, ← low]
    exact ⟨rfl, rfl⟩

/-- The lowest bits of the words are wired high: no word for a board is 0. -/
theorem words_ne_zero (f : Filters) : f.rxWord ≠ 0 ∧ f.txWord ≠ 0 := by
  constructor
  · intro zero
    have bit := congrArg (BitVec.getLsbD · 0) zero
    simp [Filters.rxWord, alexRx] at bit
  · intro zero
    have bit := congrArg (BitVec.getLsbD · 3) zero
    simp [Filters.txWord, alexTx] at bit

/-- The frequencies or the settings that the words are made from have changed in this step. -/
def Turned (board : Board) (c : Tick) : Prop :=
  (alexPort false).settings ((circuit board).tick c.regs c.pins).filters ≠
    (alexPort false).settings c.regs.filters

instance (board : Board) (c : Tick) : Decidable (Turned board c) :=
  inferInstanceAs (Decidable (_ ≠ _))

theorem last_written (run : (circuit board).Run past s) (codec : board.i2c .codec = false)
    (turned : ∃ c ∈ past, Turned board c) (clean : s.filters.alexUpdate = false) (tx : Bool)
    (old : BitVec 16) : (written (alexPort tx) board past).getLastD old =
      if tx then s.filters.txWord else s.filters.rxWord := by
  have kept := Deferred.run_kept ((alex_serves tx codec).lawful
    fun _ _ => ⟨by cases tx <;> rfl, rfl⟩) run
  have touched : (past.all fun c => !((alexPort tx).deferred board).changes c) = false := by
    obtain ⟨c, member, turned⟩ := turned
    refine Bool.eq_false_iff.mpr fun none => turned ?_
    have same : ((alexPort tx).deferred board).changes c = false := by
      simpa using List.all_eq_true.mp none c member
    exact not_not.mp (of_decide_eq_false same)
  have shown : ((alexPort tx).deferred board).shadow s =
      if tx then s.filters.txWord else s.filters.rxWord :=
    (kept.shown touched clean).trans (by cases tx <;> rfl)
  have last : (written (alexPort tx) board past).getLastD 0 =
      if tx then s.filters.txWord else s.filters.rxWord :=
    (getLastD_of_destutter' kept.written).trans (kept.last.symm.trans shown)
  cases words : written (alexPort tx) board past with
  | nil =>
    rw [words, List.getLastD_nil] at last
    obtain ⟨rx, tx'⟩ := words_ne_zero s.filters
    cases tx
    · exact absurd last.symm rx
    · exact absurd last.symm tx'
  | cons first rest =>
    rw [words, List.getLastD_cons] at last
    rw [List.getLastD_cons]
    exact last

/-- Once the frequencies or the settings of the filters have been changed, the boards come to show
the words that belong to the settings at the end of the last pass, whatever they showed before: all
it takes is that the words find room in the FIFO and that the time of the words in the FIFO passes
without another. -/
theorem settings_arrive {relays : Relays} {ticks : List AlexLink.Tick} {t : AlexLink}
    (run : (circuit board).Run past s) (codec : board.i2c .codec = false)
    (turned : ∃ c ∈ past, Turned board c) (clean : s.filters.alexUpdate = false)
    (link : (AlexLink.circuit relays).Run ticks t)
    (room : ∀ c ∈ ticks, c.pins.sAxisTvalid = true → c.regs.fifo.length < AlexLink.depth)
    (told : ticks.flatMap AlexLink.offered = alexWords board past)
    {quiet : List AlexPins} (none : ∀ i ∈ quiet, i.sAxisTvalid = false)
    (long : 2178 * (t.fifo.length + 1) ≤ quiet.length) :
    ((AlexLink.circuit relays).after t quiet).relays.rx = s.filters.rxWord ∧
      ((AlexLink.circuit relays).after t quiet).relays.tx = s.filters.txWord := by
  have shows := AlexLink.run_arrives link none long
  have all : ticks.flatMap AlexLink.accepted = alexWords board past := by
    rw [← told]
    exact List.flatMap_congr fun c member => AlexLink.accepted_of_room (room c member)
  obtain ⟨rx, tx⟩ := shows
  obtain ⟨rx', tx'⟩ := foldl_loaded (alexWords board past) relays
  rw [rx, tx, all, rx', tx', ← written_eq, ← written_eq, last_written run codec turned clean,
    last_written run codec turned clean]
  exact ⟨rfl, rfl⟩

/-- The words of `retuned` on the way to the boards. -/
def sent : List AlexPins :=
  [⟨0x11001, true⟩, ⟨0x20128, true⟩, ⟨0, false⟩, ⟨0x19001, true⟩, ⟨0x21988, true⟩]

theorem settings_arrive_retuned :
    let s := (circuit bench).after (initial 0 3) retuned
    let t := (AlexLink.circuit AlexLink.cleared.relays).after AlexLink.cleared sent
    let r := ((AlexLink.circuit AlexLink.cleared.relays).after t
      (List.replicate 8712 ⟨0, false⟩)).relays
    r.rx = s.filters.rxWord ∧ r.tx = s.filters.txWord := by
  have turned : ∃ c ∈ (circuit bench).trace (initial 0 3) retuned, Turned bench c :=
    ⟨_, List.mem_cons_self, by decide +kernel⟩
  have waiting : ((AlexLink.circuit AlexLink.cleared.relays).after AlexLink.cleared
    sent).fifo.length = 3 := by decide +kernel
  exact settings_arrive (run_trace (C := circuit bench) ⟨0, 3, rfl⟩ retuned) rfl turned
    (by decide +kernel) (run_trace AlexLink.cleared_reset sent) (by decide +kernel)
    (by decide +kernel) (fun i member => List.eq_of_mem_replicate member ▸ rfl)
    (by rw [waiting, List.length_replicate])

end HpsdrControl

end Switcheck
