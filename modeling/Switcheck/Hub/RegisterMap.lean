import Mathlib.Logic.Function.Basic
import Switcheck.Hub.WritePath
import Switcheck.Hub.Registers

/-!
# Software and hardware maps

Stores through the pointers of `adc.c`, each one byte-strobed write of a word, make the outputs of
`cfg_unpack` the variables behind the pointers; loads see the inputs of `sts_pack`.
-/

namespace Switcheck

open Sync Circuit

structure CfgStore where
  ptr : CfgPtr
  value : BitVec (8 * ptr.size)

/-- The value last stored through each pointer. -/
def lastStored (stores : List CfgStore) : CfgVars :=
  stores.foldl (fun vars st => Function.update vars st.ptr st.value) fun _ => 0

/-- A store with the request and the one beat that perform it. -/
structure StoreTransfer where
  store : CfgStore
  request : AwReq
  beat : WBeat
  region : request.region = 0
  last : beat.wlast = true
  writes : Stores store.ptr.offset store.ptr.size store.value
    ⟨request.word, beat.wstrb, beat.wdata⟩

namespace StoreTransfer

def op (x : StoreTransfer) : StrobedWrite := ⟨x.request.word, x.beat.wstrb, x.beat.wdata⟩

theorem word_lt (x : StoreTransfer) : x.request.word < 5 := by
  have word : x.request.word = x.store.ptr.offset / 4 := x.writes.addr
  have whole := x.store.ptr.whole
  have inside := x.store.ptr.inside
  have pos := x.store.ptr.size_pos
  omega

end StoreTransfer

/-! ### The variables in the register file -/

theorem wordAt_apply {n : Nat} (file : RegisterFile n) {op : StrobedWrite} (inside : op.addr < n) :
    wordAt (file.apply op) = writeWord (wordAt file) op := by
  funext j
  unfold wordAt writeWord RegisterFile.apply
  by_cases low : j < n
  · simp [low]
  · simp [low, show j ≠ op.addr by omega]

theorem load_zero (n offset size : Nat) :
    load (wordAt (fun _ => 0 : RegisterFile n)) offset size = 0 := by
  refine BitVec.eq_of_getLsbD_eq fun k low => ?_
  rw [load_getLsbD low, bitOf, wordAt]
  split <;> simp

theorem lastStored_snoc (stores : List CfgStore) (st : CfgStore) :
    lastStored (stores ++ [st]) = Function.update (lastStored stores) st.ptr st.value := by
  simp [lastStored]

/-- Behind each pointer is what was last stored through it. -/
theorem after_agrees {n : Nat} (large : 5 ≤ n) (done : List StoreTransfer) (f : CfgPtr) :
    load (wordAt (RegisterFile.after (done.map StoreTransfer.op) : RegisterFile n)) f.offset f.size =
      lastStored (done.map StoreTransfer.store) f := by
  induction done using List.reverseRecOn with
  | nil => exact load_zero n _ _
  | append_singleton done x ih =>
    have inside : x.op.addr < n := Nat.lt_of_lt_of_le x.word_lt large
    rw [List.map_append, List.map_append, RegisterFile.after_append, List.map_singleton,
      List.map_singleton, lastStored_snoc, List.foldl_cons, List.foldl_nil, wordAt_apply _ inside]
    by_cases same : f = x.store.ptr
    · subst same
      rw [Function.update_self]
      exact load_store_self x.writes x.store.ptr.whole
    · rw [Function.update_of_ne same, ← ih]
      exact load_store_other x.writes x.store.ptr.whole (CfgPtr.apart same)

/-! ### Single writes -/

theorem schedule_of_closed {beats : List WBeat} (closed : ∀ b ∈ beats, b.wlast = true)
    (aws : List AwReq) : schedule aws beats =
      List.zipWith (fun aw b => (⟨aw.word, b.wstrb, b.wdata⟩ : StrobedWrite)) aws beats := by
  obtain ⟨single, none⟩ := frames_of_closed WBeat.wlast closed
  rw [schedule, bursts, single, none]
  clear single none closed
  induction aws generalizing beats with
  | nil => simp
  | cons aw aws ih =>
    cases beats with
    | nil => simp
    | cons b beats =>
      rw [List.map_cons, List.cons_append, List.zipWith_cons_cons, List.flatten_cons, ih]
      rfl

theorem transfers_closed {plan : List StoreTransfer} {beats : List WBeat}
    (data : beats <+: plan.map StoreTransfer.beat) : ∀ b ∈ beats, b.wlast = true := by
  intro b member
  obtain ⟨x, -, rfl⟩ := List.mem_map.mp (data.subset member)
  exact x.last

theorem zipWith_transfers {plan : List StoreTransfer} {aws : List AwReq} {beats : List WBeat}
    (requests : aws <+: plan.map StoreTransfer.request)
    (data : beats <+: plan.map StoreTransfer.beat) (enough : beats.length ≤ aws.length) :
    List.zipWith (fun aw b => (⟨aw.word, b.wstrb, b.wdata⟩ : StrobedWrite)) aws beats =
      (plan.take beats.length).map StoreTransfer.op := by
  have fits := data.length_le
  rw [List.length_map] at fits
  refine List.ext_getElem ?_ fun k low _ => ?_
  · simp only [List.length_zipWith, List.length_map, List.length_take]
    omega
  · rw [List.length_zipWith] at low
    rw [List.getElem_zipWith, requests.getElem (by omega), data.getElem (by omega)]
    simp [StoreTransfer.op]

namespace AxiHub

variable {past : List (Tick deployed)} {s : AxiHub deployed} {plan : List StoreTransfer}

theorem inCfg_transfers {aws : List AwReq} {beats : List WBeat}
    (requests : aws <+: plan.map StoreTransfer.request)
    (data : beats <+: plan.map StoreTransfer.beat) : InCfg deployed aws beats := by
  obtain ⟨single, none⟩ := frames_of_closed WBeat.wlast (transfers_closed data)
  rintro ⟨aw, burst⟩ member
  obtain ⟨request, found⟩ := List.of_mem_zip member
  obtain ⟨x, -, rfl⟩ := List.mem_map.mp (requests.subset request)
  have short : burst.length ≤ 1 := by
    rw [bursts, single, none] at found
    rcases List.mem_append.mp found with full | last
    · obtain ⟨b, -, rfl⟩ := List.mem_map.mp full
      exact Nat.le_refl 1
    · rw [List.mem_singleton.mp last]
      exact Nat.zero_le 1
  have word := x.word_lt
  have size : deployed.cfgSize = 10 := rfl
  refine ⟨by dsimp only; omega, x.region, fun n low => ?_⟩
  dsimp only at low ⊢
  omega

theorem consumed_transfers (run : (circuit deployed).Run past s)
    (data : past.flatMap wAccepted <+: plan.map StoreTransfer.beat) :
    past.flatMap wConsumed <+: plan.map StoreTransfer.beat :=
  (run_w run ▸ List.prefix_append _ _).trans data

theorem consumed_le (run : (circuit deployed).Run past s)
    (data : past.flatMap wAccepted <+: plan.map StoreTransfer.beat) :
    (past.flatMap bAccepted).length ≤ (past.flatMap wConsumed).length ∧
      (past.flatMap wConsumed).length ≤ (past.flatMap awAccepted).length := by
  have inv := run_writeInv run
  have closed := transfers_closed (consumed_transfers run data)
  have count := congrArg List.length (frames_of_closed WBeat.wlast closed).1
  have answers := congrArg List.length (run_b run)
  have requests := congrArg List.length (run_aw run)
  rw [List.length_map, ← inv.closed] at count
  rw [inv.answered, List.length_append, List.length_map] at answers
  rw [List.length_append] at requests
  omega

/-- What the status pointers and the packed structure read, for any inputs of `sts_pack`. -/
def StatusAgrees (x : StsInputs) : Prop :=
  ∀ f : StsField, load (busWord (stsPack x)) f.structOffset f.size = f.input x ∧
    ∀ o, f.ptrOffset = some o → load (busWord (stsPack x)) o f.size = f.input x

theorem statusAgrees (x : StsInputs) : StatusAgrees x := by
  intro f
  have packed : load (busWord (stsPack x)) f.structOffset f.size = f.input x := by
    rw [load_busWord, f.extract_stsPack]
  refine ⟨packed, fun o pointer => ?_⟩
  rw [StsField.ptrOffset_eq pointer]
  exact packed

/-- The stores answered, and the one that may be ahead of its answer, are in effect. -/
structure RegistersAgree (plan : List StoreTransfer) (past : List (Tick deployed))
    (s : AxiHub deployed) : Prop where
  answered : (past.flatMap bAccepted).length ≤ (past.flatMap wConsumed).length
  config : CfgAgrees
    (lastStored ((plan.take (past.flatMap wConsumed).length).map StoreTransfer.store))
    (cfgUnpack (bus 320 (wordAt s.cfgData)))
  status : ∀ x, StatusAgrees x

/-- Software and hardware agree on both register maps, after any stores in any timing. -/
theorem run_registersAgree (run : (circuit deployed).Run past s)
    (requests : past.flatMap awAccepted <+: plan.map StoreTransfer.request)
    (data : past.flatMap wAccepted <+: plan.map StoreTransfer.beat) :
    RegistersAgree plan past s := by
  have inv := run_writeInv run
  obtain ⟨answered, enough⟩ := consumed_le run data
  have consumed := consumed_transfers run data
  have stored : s.cfgData = RegisterFile.after
      ((plan.take (past.flatMap wConsumed).length).map StoreTransfer.op) := by
    rw [inv.stored (inCfg_transfers requests data), ← inv.schedule_eq run,
      schedule_of_closed (transfers_closed consumed), zipWith_transfers requests consumed enough]
  refine ⟨answered, cfgUnpack_agrees fun f => ?_, statusAgrees⟩
  rw [stored]
  exact after_agrees (by decide) _ f

/-- `*rx_rate = 0x1234` and `*limiter = 16`. -/
def rateAndLimiter : List StoreTransfer :=
  [{ store := ⟨.rxRate, 0x1234⟩
     request := ⟨1, 0x40000002⟩
     beat := ⟨0b1100, true, 0x1234ffff⟩
     region := by decide
     last := rfl
     writes := ⟨by decide, by decide, by decide +kernel⟩ },
    { store := ⟨.limiter, 16⟩
      request := ⟨2, 0x4000000a⟩
      beat := ⟨0b0100, true, 0xaa10bbcc⟩
      region := by decide
      last := rfl
      writes := ⟨by decide, by decide, by decide +kernel⟩ }]

def storePins : List (HubPins deployed) :=
  (rateAndLimiter.map fun x =>
    { quiet with
      sAxiAw := x.request, sAxiAwvalid := true, sAxiW := x.beat, sAxiWvalid := true }) ++
    List.replicate 4 quiet

theorem run_registersAgree_rateAndLimiter :
    RegistersAgree rateAndLimiter ((circuit deployed).trace fresh storePins)
      ((circuit deployed).after fresh storePins) ∧
    ((circuit deployed).after fresh storePins).cfgData ⟨2, by decide⟩ = 0x100000 ∧
    ((circuit deployed).trace fresh storePins).flatMap bAccepted = [1, 2] :=
  ⟨run_registersAgree (run_trace fresh_reset storePins) (by decide +kernel) (by decide +kernel),
    by decide +kernel, by decide +kernel⟩

end AxiHub

end Switcheck
