import Mathlib.Data.List.Induction
import Switcheck.Server.DoubleBuffer

/-!
# A session of the polling loop

The loop samples a counter that runs round the ring. Here the counter does not wrap, so that
the halves it traverses can be numbered; `position` is what the loop reads of it.
-/

namespace Switcheck

/-- How far the counter moves before a poll, and what the poll reads when the counter stands at
the given number of bursts. -/
structure Sampling (ι : Type) where
  advance : ι → Nat
  position : ι → Nat → Nat

def Sampling.moved {ι : Type} (m : Sampling ι) (polls : List ι) : Nat :=
  polls.foldl (fun total i => total + m.advance i) 0

/-- A block sent, with what the loop had read and where the counter was. -/
structure Sent where
  offset : Nat
  position : Nat
  counter : Nat

structure Session where
  counter : Nat
  limit : Nat
  sent : List Sent

namespace DoubleBuffer

variable {ι : Type}

def turn (d : DoubleBuffer) (m : Sampling ι) (s : Session) (i : ι) : Session :=
  let counter := s.counter + m.advance i
  let position := m.position i counter
  { counter := counter
    limit := (d.poll s.limit position).2
    sent := s.sent ++ (d.poll s.limit position).1.toList.map (⟨·, position, counter⟩) }

def session (d : DoubleBuffer) (m : Sampling ι) (polls : List ι) : Session :=
  polls.foldl (d.turn m) ⟨0, d.half, []⟩

/-- The offsets of the first `n` halves the counter traverses. -/
def offsets (d : DoubleBuffer) (n : Nat) : List Nat :=
  (List.range n).map fun k => if k % 2 = 0 then 0 else d.block

def Inside (d : DoubleBuffer) (offset position : Nat) : Prop :=
  if offset = 0 then position < d.half else d.half ≤ position

/-- A counter that wraps after both halves, read in full. -/
def ringSampling (d : DoubleBuffer) : Sampling Nat where
  advance := id
  position _ counter := counter % (2 * d.half)

variable {d : DoubleBuffer} {m : Sampling ι}

theorem session_snoc (d : DoubleBuffer) (m : Sampling ι) (polls : List ι) (i : ι) :
    d.session m (polls ++ [i]) = d.turn m (d.session m polls) i := by
  simp [session]

theorem session_counter (d : DoubleBuffer) (m : Sampling ι) (polls : List ι) :
    (d.session m polls).counter = m.moved polls := by
  induction polls using List.reverseRecOn with
  | nil => rfl
  | append_singleton polls i ih => simp [session_snoc, turn, ih, Sampling.moved]

theorem session_read {polls : List ι} :
    ∀ b ∈ (d.session m polls).sent, ∃ i ∈ polls, b.position = m.position i b.counter := by
  induction polls using List.reverseRecOn with
  | nil => simp [session]
  | append_singleton polls i ih =>
    intro b member
    rw [session_snoc] at member
    unfold turn at member
    rcases List.mem_append.mp member with earlier | now
    · obtain ⟨j, before, read⟩ := ih b earlier
      exact ⟨j, List.mem_append_left _ before, read⟩
    · obtain ⟨offset, -, rfl⟩ := List.mem_map.mp now
      exact ⟨i, by simp, rfl⟩

theorem offsets_succ (d : DoubleBuffer) (n : Nat) :
    d.offsets (n + 1) = d.offsets n ++ [if n % 2 = 0 then 0 else d.block] := by
  simp [offsets, List.range_succ]

theorem turn_idle {s : Session} {i : ι}
    (idle : d.ready s.limit (m.position i (s.counter + m.advance i)) = false) :
    (d.turn m s i).limit = s.limit ∧ (d.turn m s i).sent = s.sent := by
  simp [turn, poll, idle]

theorem turn_ready {s : Session} {i : ι}
    (ready : d.ready s.limit (m.position i (s.counter + m.advance i)) = true) :
    (d.turn m s i).limit = d.limitNext s.limit ∧
    (d.turn m s i).sent = s.sent ++
      [⟨d.offset s.limit, m.position i (s.counter + m.advance i), s.counter + m.advance i⟩] := by
  simp [turn, poll, ready]

/-! ### What the loop owes -/

/-- After `n` blocks sent the counter is in half `n`, or exactly at its end when that is the
first burst of the high half: the comparison with `limit` is strict. -/
def Due (d : DoubleBuffer) (n counter : Nat) : Prop :=
  ∃ past, counter = n * d.half + past ∧ (past < d.half ∨ (n % 2 = 0 ∧ past = d.half))

structure InTurn (d : DoubleBuffer) (s : Session) : Prop where
  offsets : s.sent.map Sent.offset = d.offsets s.sent.length
  limit : s.limit = if s.sent.length % 2 = 0 then d.half else 0
  due : d.Due s.sent.length s.counter
  outside : ∀ b ∈ s.sent, ¬ d.Inside b.offset b.position

theorem Due.traversed {n counter : Nat} (positive : 0 < d.half) (due : d.Due n counter) :
    n ≤ counter / d.half ∧ counter / d.half ≤ n + 1 := by
  obtain ⟨past, rfl, bound⟩ := due
  have whole : (n * d.half + past) / d.half = n + past / d.half := by
    rw [Nat.add_comm, Nat.add_mul_div_right _ _ positive, Nat.add_comm]
  have rest : past / d.half ≤ 1 := by
    rw [Nat.div_le_iff_le_mul_add_pred positive]
    omega
  rw [whole]
  exact ⟨Nat.le_add_right n _, Nat.add_le_add_left rest n⟩

/-- Where the counter stands in the ring, when it is less than a ring past `n` halves. -/
theorem ring_position {h past : Nat} (n : Nat) (near : past < 2 * h) :
    (n * h + past) % (2 * h) =
      if n % 2 = 0 then past else if past < h then past + h else past - h := by
  have halves : n * h = 2 * h * (n / 2) + n % 2 * h := by
    conv_lhs => rw [← Nat.div_add_mod n 2, Nat.add_mul]
    rw [Nat.mul_right_comm]
  rw [halves, Nat.add_assoc, Nat.mul_add_mod]
  rcases Nat.mod_two_eq_zero_or_one n with even | odd
  · rw [even, if_pos rfl, Nat.zero_mul, Nat.zero_add, Nat.mod_eq_of_lt near]
  · rw [odd, if_neg Nat.one_ne_zero, Nat.one_mul]
    split
    · rw [Nat.mod_eq_of_lt (by omega), Nat.add_comm]
    · rw [Nat.mod_eq_sub_mod (by omega), Nat.mod_eq_of_lt (by omega)]
      omega

theorem inTurn_start (positive : 0 < d.half) : InTurn d ⟨0, d.half, []⟩ where
  offsets := rfl
  limit := rfl
  due := ⟨0, by simp, .inl positive⟩
  outside := by simp

theorem InTurn.idle {s : Session} {i : ι} (inv : d.InTurn s)
    (idle : d.ready s.limit (m.position i (s.counter + m.advance i)) = false)
    (due : d.Due s.sent.length (s.counter + m.advance i)) : d.InTurn (d.turn m s i) := by
  obtain ⟨limit, sent⟩ := turn_idle idle
  refine ⟨?_, ?_, ?_, ?_⟩
  · rw [sent]
    exact inv.offsets
  · rw [limit, sent]
    exact inv.limit
  · rw [sent]
    exact due
  · rw [sent]
    exact inv.outside

theorem InTurn.send {s : Session} {i : ι} (inv : d.InTurn s) (positive : 0 < d.half)
    (block : 0 < d.block)
    (ready : d.ready s.limit (m.position i (s.counter + m.advance i)) = true)
    (due : d.Due (s.sent.length + 1) (s.counter + m.advance i)) : d.InTurn (d.turn m s i) := by
  obtain ⟨limit, sent⟩ := turn_ready ready
  have offset : d.offset s.limit = if s.sent.length % 2 = 0 then 0 else d.block := by
    rw [inv.limit]
    unfold DoubleBuffer.offset
    split <;> simp_all
  refine ⟨?_, ?_, ?_, ?_⟩
  · rw [sent, List.map_append, inv.offsets, List.length_append, List.length_singleton, offsets_succ]
    exact congrArg (_ ++ [·]) offset
  · rw [limit, sent, inv.limit, List.length_append, List.length_singleton]
    unfold limitNext
    rcases Nat.mod_two_eq_zero_or_one s.sent.length with even | odd
    · simp [even, positive, Nat.add_mod]
    · simp [odd, Nat.add_mod]
  · rw [sent, List.length_append]
    exact due
  · rw [sent]
    intro b member
    rcases List.mem_append.mp member with earlier | now
    · exact inv.outside b earlier
    · obtain rfl := List.mem_singleton.mp now
      have sends : (d.poll s.limit (m.position i (s.counter + m.advance i))).1 =
          some (d.offset s.limit) := by
        simp [poll, ready]
      unfold Inside
      rcases poll_sent sends with ⟨low, passed, zero⟩ | ⟨-, wrapped, high⟩
      · have first : s.limit = d.half := by
          have limit := inv.limit
          split at limit <;> omega
        rw [if_pos zero]
        dsimp only
        omega
      · rw [if_neg (by dsimp only; omega)]
        dsimp only
        omega

theorem InTurn.turn {s : Session} (inv : d.InTurn s) (positive : 0 < d.half) (block : 0 < d.block)
    {move : Nat} (small : move < d.half) : d.InTurn (d.turn d.ringSampling s move) := by
  obtain ⟨past, counter, bound⟩ := inv.due
  have next : s.counter + move = s.sent.length * d.half + (past + move) := by omega
  have near : past + move < 2 * d.half := by omega
  have read := ring_position s.sent.length near
  have position : d.ringSampling.position move (s.counter + d.ringSampling.advance move) =
      (s.sent.length * d.half + (past + move)) % (2 * d.half) := congrArg (· % (2 * d.half)) next
  have onward : past + move < d.half ∨ past + move = d.half ∨ d.half < past + move := by omega
  have sends : d.half < past + move ∨ (d.half = past + move ∧ s.sent.length % 2 = 1) ↔
      d.ready s.limit (d.ringSampling.position move (s.counter + d.ringSampling.advance move)) =
        true := by
    rw [position, read, inv.limit]
    unfold ready
    rcases Nat.mod_two_eq_zero_or_one s.sent.length with even | odd
    · simp [even, positive]
      omega
    · simp only [odd, Nat.one_ne_zero, if_false, Nat.lt_irrefl, decide_false, Bool.false_and,
        Bool.false_or, decide_true, Bool.true_and, decide_eq_true_eq, and_true]
      split <;> omega
  by_cases left : d.half < past + move ∨ (d.half = past + move ∧ s.sent.length % 2 = 1)
  · refine inv.send positive block (sends.mp left) ⟨past + move - d.half, ?_, .inl (by omega)⟩
    show s.counter + move = _
    rw [next, Nat.add_mul]
    omega
  · refine inv.idle (Bool.eq_false_iff.mpr (mt sends.mpr left)) ⟨past + move, next, ?_⟩
    omega

theorem session_inTurn (positive : 0 < d.half) (block : 0 < d.block) {moves : List Nat}
    (small : ∀ move ∈ moves, move < d.half) : d.InTurn (d.session d.ringSampling moves) := by
  induction moves using List.reverseRecOn with
  | nil => exact inTurn_start positive
  | append_singleton moves move ih =>
    rw [session_snoc]
    refine (ih fun m member => small m (List.mem_append_left _ member)).turn positive block ?_
    exact small move (by simp)

/-- The blocks sent are the halves in the order the counter traverses them, the latest at most
still to come, and none with the position read in it. -/
structure KeepsUp (d : DoubleBuffer) (moved : Nat) (s : Session) : Prop where
  offsets : s.sent.map Sent.offset = d.offsets s.sent.length
  outside : ∀ b ∈ s.sent, b.position = b.counter % (2 * d.half) ∧ ¬ d.Inside b.offset b.position
  atMost : s.sent.length ≤ moved / d.half
  atLeast : moved / d.half ≤ s.sent.length + 1

theorem adcTest_keepsUp {moves : List Nat} (small : ∀ move ∈ moves, move < 32768) :
    adcTest.KeepsUp (adcTest.ringSampling.moved moves)
      (adcTest.session adcTest.ringSampling moves) := by
  have inv : adcTest.InTurn (adcTest.session adcTest.ringSampling moves) :=
    session_inTurn (by decide) (by decide) small
  have counter := session_counter adcTest adcTest.ringSampling moves
  obtain ⟨atMost, atLeast⟩ := inv.due.traversed (by decide)
  rw [counter] at atMost atLeast
  refine ⟨inv.offsets, fun b member => ⟨?_, inv.outside b member⟩, atMost, atLeast⟩
  obtain ⟨_, _, read⟩ := session_read b member
  exact read

theorem adcTest_keepsUp_twoLaps :
    adcTest.KeepsUp 98304 (adcTest.session adcTest.ringSampling [32767, 1, 1, 32767, 32767, 1]) ∧
    (adcTest.session adcTest.ringSampling [32767, 1, 1, 32767, 32767, 1]).sent.map Sent.offset =
      [0, 4194304] := by
  have small : ∀ move ∈ [32767, 1, 1, 32767, 32767, 1], move < 32768 := by decide
  exact ⟨adcTest_keepsUp small, by decide⟩

end DoubleBuffer

end Switcheck
