import Mathlib.Algebra.Ring.Nat
import Switcheck.Sync.Circuit
import Switcheck.Sync.Framing

/-!
# Bursts against a queue of requests

A server queues requests and serves beats for the one in front; the beat that closes a burst
drops the request. The `k`-th burst served is then the burst of the `k`-th request.
-/

namespace Switcheck.Sync

open Circuit

variable {σ ι Req Beat γ : Type}

/-- What of a circuit makes it such a server: at most one beat a clock, and only for a request. -/
structure BurstQueue (C : Circuit σ ι) (Req Beat : Type) where
  queue : σ → List Req
  accepted : Clock σ ι → List Req
  popped : Clock σ ι → List Req
  served : Clock σ ι → List Beat
  last : Beat → Bool
  empty : ∀ s, C.Reset s → queue s = []
  conserve : ∀ s i, popped ⟨s, i⟩ ++ queue (C.tick s i) = queue s ++ accepted ⟨s, i⟩
  serves : ∀ c, (served c = [] ∧ popped c = []) ∨ ∃ r b, (queue c.regs).head? = some r ∧
    served c = [b] ∧ popped c = if last b then [r] else []

namespace BurstQueue

variable {C : Circuit σ ι} (Q : BurstQueue C Req Beat) {past : List (Clock σ ι)} {s : σ}

def requests (past : List (Clock σ ι)) : List Req := past.flatMap Q.accepted

def beats (past : List (Clock σ ι)) : List Beat := past.flatMap Q.served

/-- What the beat of a clock comes to, served for the request in front. -/
def effect (h : Req → Beat → List γ) (c : Clock σ ι) : List γ :=
  (Q.served c).flatMap fun b => (Q.queue c.regs).head?.toList.flatMap fun r => h r b

/-- What the bursts come to, each served for the request at its place. -/
def route (last : Beat → Bool) (h : Req → Beat → List γ) (requests : List Req)
    (beats : List Beat) : List γ :=
  (List.zipWith (fun r burst => burst.flatMap (h r)) requests (bursts last beats)).flatten

theorem run_requests (run : C.Run past s) :
    past.flatMap Q.popped ++ Q.queue s = Q.requests past :=
  run.conserve Q.queue Q.empty Q.conserve

theorem beats_snoc (past : List (Clock σ ι)) (c : Clock σ ι) :
    Q.beats (past ++ [c]) = Q.beats past ++ Q.served c := by
  simp [beats]

/-- The front of the queue stays until it is dropped. -/
theorem head?_kept {s : σ} {i : ι} {r : Req} (front : (Q.queue s).head? = some r)
    (kept : Q.popped ⟨s, i⟩ = []) : (Q.queue (C.tick s i)).head? = some r := by
  have next := Q.conserve s i
  rw [kept, List.nil_append] at next
  rw [next, List.head?_append, front]
  rfl

/-- Bursts closed and requests dropped go together, and an open burst has its request in front. -/
theorem run_closed (run : C.Run past s) :
    (past.flatMap Q.popped).length = (frames Q.last (Q.beats past)).length ∧
      (rest Q.last (Q.beats past) ≠ [] → ∃ r, (Q.queue s).head? = some r) := by
  induction run with
  | reset => exact ⟨rfl, fun some => absurd rfl some⟩
  | @tick past s run i ih =>
    obtain ⟨closed, opened⟩ := ih
    rw [flatMap_snoc, beats_snoc]
    rcases Q.serves ⟨s, i⟩ with ⟨none, kept⟩ | ⟨r, b, front, serves, dropped⟩
    · rw [none, kept, List.append_nil, List.append_nil]
      refine ⟨closed, fun some => ?_⟩
      obtain ⟨r, front⟩ := opened some
      exact ⟨r, Q.head?_kept front kept⟩
    · rw [serves, frames_snoc, rest_snoc]
      cases closes : Q.last b with
      | true =>
        rw [closes, if_pos rfl] at dropped
        rw [dropped, if_pos rfl, if_pos rfl]
        exact ⟨by simp [closed], fun some => absurd rfl some⟩
      | false =>
        rw [closes, if_neg Bool.false_ne_true] at dropped
        rw [dropped, if_neg Bool.false_ne_true, List.append_nil]
        exact ⟨closed, fun _ => ⟨r, Q.head?_kept front dropped⟩⟩

theorem run_front (run : C.Run past s) {r : Req} (front : (Q.queue s).head? = some r) :
    (Q.requests past)[(frames Q.last (Q.beats past)).length]? = some r := by
  rw [← Q.run_requests run, ← (Q.run_closed run).1, List.getElem?_append_right (Nat.le_refl _),
    Nat.sub_self, ← List.head?_eq_getElem?]
  exact front

/-- A register that counts the beats of the open burst, where the request in front says how many
follow the first. -/
structure Counts (count : σ → Nat) (len : Req → Nat) : Prop where
  zero : ∀ s, C.Reset s → count s = 0
  idle : ∀ s i, Q.served ⟨s, i⟩ = [] → count (C.tick s i) = count s
  ends : ∀ s i r b, (Q.queue s).head? = some r → Q.served ⟨s, i⟩ = [b] →
    (Q.last b = true ↔ count s = len r)
  next : ∀ s i r b, (Q.queue s).head? = some r → Q.served ⟨s, i⟩ = [b] → count s ≤ len r →
    count (C.tick s i) = if Q.last b then 0 else count s + 1

variable {Q} {count : σ → Nat} {len : Req → Nat}

theorem Counts.run (counts : Q.Counts count len) (run : C.Run past s) :
    count s = (rest Q.last (Q.beats past)).length ∧
      ∀ r, (Q.queue s).head? = some r → count s ≤ len r := by
  induction run with
  | @reset s reset =>
    rw [counts.zero s reset]
    exact ⟨rfl, fun r _ => Nat.zero_le _⟩
  | @tick past s run i ih =>
    obtain ⟨counted, within⟩ := ih
    rw [beats_snoc]
    rcases Q.serves ⟨s, i⟩ with ⟨none, kept⟩ | ⟨r, b, front, serves, dropped⟩
    · rw [none, List.append_nil, counts.idle s i none]
      refine ⟨counted, fun r' front' => ?_⟩
      by_cases nothing : rest Q.last (Q.beats past) = []
      · rw [counted, nothing]
        exact Nat.zero_le _
      · obtain ⟨r, front⟩ := (Q.run_closed run).2 nothing
        rw [Q.head?_kept front kept] at front'
        exact Option.some.inj front' ▸ within r front
    · rw [serves, rest_snoc, counts.next s i r b front serves (within r front)]
      cases closes : Q.last b with
      | true => exact ⟨rfl, fun _ _ => Nat.zero_le _⟩
      | false =>
        rw [closes, if_neg Bool.false_ne_true] at dropped
        rw [if_neg Bool.false_ne_true, if_neg Bool.false_ne_true, List.length_append, counted]
        refine ⟨rfl, fun r' front' => ?_⟩
        rw [Q.head?_kept front dropped] at front'
        obtain rfl := Option.some.inj front'
        have bound := within r front
        have differ : count s ≠ len r := fun same =>
          Bool.eq_false_iff.mp closes ((counts.ends s i r b front serves).mpr same)
        omega

/-- Every burst closed has the length its request asks for. -/
theorem Counts.full (counts : Q.Counts count len) (run : C.Run past s) {k : Nat}
    {burst : List Beat} {r : Req} (found : (frames Q.last (Q.beats past))[k]? = some burst)
    (request : (Q.requests past)[k]? = some r) : burst.length = len r + 1 := by
  induction run with
  | reset => simp [beats] at found
  | @tick past s run i ih =>
    have grows : Q.requests past <+: Q.requests (past ++ [⟨s, i⟩]) := ⟨_, List.flatMap_append.symm⟩
    have old (found : (frames Q.last (Q.beats past))[k]? = some burst) :
        burst.length = len r + 1 := by
      have low := (List.getElem?_eq_some_iff.mp found).1
      have there : k < (Q.requests past).length := by
        rw [← Q.run_requests run, List.length_append, (Q.run_closed run).1]
        omega
      have request' := List.getElem?_eq_getElem there
      rw [getElem?_mono grows request'] at request
      obtain rfl := Option.some.inj request
      exact ih found request'
    rw [beats_snoc] at found
    rcases Q.serves ⟨s, i⟩ with ⟨none, -⟩ | ⟨front, b, head, serves, -⟩
    · rw [none, List.append_nil] at found
      exact old found
    · rw [serves, frames_snoc] at found
      cases closes : Q.last b with
      | false =>
        rw [closes, if_neg Bool.false_ne_true] at found
        exact old found
      | true =>
        rw [if_pos closes] at found
        rcases getElem?_snoc found with earlier | ⟨rfl, rfl⟩
        · exact old earlier
        · rw [getElem?_mono grows (Q.run_front run head)] at request
          obtain rfl := Option.some.inj request
          have counted := (counts.run run).1
          have last := (counts.ends s i front b head serves).mp closes
          rw [List.length_append, List.length_singleton, ← counted, last]

/-- No more beats are served than the requests ask for. -/
theorem Counts.beats_le (counts : Q.Counts count len) (run : C.Run past s) :
    (Q.beats past).length ≤ ((Q.requests past).map fun r => len r + 1).sum := by
  obtain ⟨closed, opened⟩ := Q.run_closed run
  have requests := Q.run_requests run
  have lengths : (frames Q.last (Q.beats past)).map List.length =
      (past.flatMap Q.popped).map fun r => len r + 1 := by
    refine List.ext_getElem (by simp [closed]) fun k low low' => ?_
    rw [List.getElem_map, List.getElem_map]
    refine counts.full run (List.getElem?_eq_getElem _) ?_
    rw [← requests]
    exact getElem?_mono (List.prefix_append _ _) (List.getElem?_eq_getElem _)
  have parts := congrArg List.length (flatten_frames Q.last (Q.beats past))
  rw [List.length_append, List.length_flatten, lengths] at parts
  rw [← requests, List.map_append, List.sum_append_nat]
  by_cases nothing : rest Q.last (Q.beats past) = []
  · rw [nothing, List.length_nil] at parts
    omega
  · obtain ⟨r, front⟩ := opened nothing
    obtain ⟨counted, within⟩ := counts.run run
    have less := within r front
    cases held : Q.queue s with
    | nil => simp [held] at front
    | cons r' more =>
      obtain rfl : r' = r := by simpa [held] using front
      rw [List.map_cons, List.sum_cons]
      omega

variable (Q)

theorem route_split {last : Beat → Bool} {h : Req → Beat → List γ} {popped waiting : List Req}
    {beats : List Beat} (closed : popped.length = (frames last beats).length) :
    route last h (popped ++ waiting) beats =
      (List.zipWith (fun r burst => burst.flatMap (h r)) popped (frames last beats)).flatten ++
        waiting.head?.toList.flatMap fun r => (rest last beats).flatMap (h r) := by
  rw [route, bursts, List.zipWith_append closed, List.flatten_append]
  cases waiting <;> simp

/-- What the clocks of a run come to is what the bursts come to, request by request. -/
theorem run_routed (run : C.Run past s) (h : Req → Beat → List γ) :
    past.flatMap (Q.effect h) = route Q.last h (Q.requests past) (Q.beats past) := by
  rw [← Q.run_requests run, route_split (Q.run_closed run).1]
  induction run with
  | reset => simp [beats]
  | @tick past s run i ih =>
    obtain ⟨closed, opened⟩ := Q.run_closed run
    rw [flatMap_snoc, ih, flatMap_snoc, beats_snoc]
    rcases Q.serves ⟨s, i⟩ with ⟨none, kept⟩ | ⟨r, b, front, serves, dropped⟩
    · have idle : Q.effect h ⟨s, i⟩ = [] := by rw [effect, none, List.flatMap_nil]
      rw [idle, none, kept, List.append_nil, List.append_nil, List.append_nil]
      by_cases nothing : rest Q.last (Q.beats past) = []
      · simp only [nothing, List.flatMap_nil]
        rw [List.flatMap_eq_nil_iff.mpr fun _ _ => rfl, List.flatMap_eq_nil_iff.mpr fun _ _ => rfl]
      · obtain ⟨r, front⟩ := opened nothing
        rw [front, Q.head?_kept front kept]
    · have one : Q.effect h ⟨s, i⟩ = h r b := by
        have front' : (Q.queue (Clock.mk s i).regs).head? = some r := front
        simp [effect, serves, front']
      have front' : (Q.queue s).head? = some r := front
      rw [one, front', serves, frames_snoc, rest_snoc]
      cases closes : Q.last b with
      | true =>
        rw [closes, if_pos rfl] at dropped
        rw [dropped, if_pos rfl, if_pos rfl, List.zipWith_append closed]
        simp
      | false =>
        rw [closes, if_neg Bool.false_ne_true] at dropped
        rw [dropped, if_neg Bool.false_ne_true, if_neg Bool.false_ne_true, List.append_nil,
          Q.head?_kept front' dropped]
        simp

end BurstQueue

end Switcheck.Sync
