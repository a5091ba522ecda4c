import ConsMachine.Proofs.Failure
import ConsMachine.Proofs.Segments

/-!
# How high the stack grows

While a balanced program runs, its stack is divided into segments, one for each continuation
on it and one for the running block (`State.Running`). Each step keeps it so, and therefore,
with `k` continuations on the stack and no peak above `H`, the stack has at most `(k + 1) * H`
entries (`State.Running.length_le`).

A continuation is saved only by a branch or a call of a closure that has instructions
behind it (`State.saves`). Where these stand in tail position, the number of
continuations does not grow, and neither does the bound, for however many steps a loop
goes on (`stack_bounded`).

Which peaks count depends on the natives. If they make no functions of their own, it is enough
to look at the code that is there at the start. Natives that make functions add to it, and what
is there at the start does not bound the stack any more (`not_forall_stack_bounded`).
-/

namespace ConsMachine

variable {B : Value → Prop} {host : Host} {H k n : Nat} {s t u : State} {v : Value}

/-! ### Running states -/

/-- The stack is divided into segments by `k` continuations, and the running block awaits
    `awaited` values more than are in its segment. -/
structure State.Running (B : Value → Prop) (H k awaited : Nat) (s : State) : Prop where
  globals : ∀ name v, s.globals.find? name = some v → Fit B v
  env : ∀ v ∈ s.env, Fit B v
  stack : ∃ operands below, s.stack = operands ++ below ∧ (∀ v ∈ operands, Fit B v) ∧
    Segment B H s.env.length (operands.length + awaited) s.control ∧ AwaitsWithin B H k below

/-- From `s`, with `k` continuations on its stack, to a running state: no more of them
    came on the stack than were made. -/
def State.RunsOn (B : Value → Prop) (H k : Nat) (s t : State) : Prop :=
  ∃ k', t.Running B H k' 0 ∧ k' + s.nextContinuation ≤ k + t.nextContinuation

namespace State.Running

/-- A segment for each continuation, and one for the running block. -/
theorem length_le (h : s.Running B H k 0) : s.stack.length ≤ (k + 1) * H := by
  obtain ⟨operands, below, hstack, _, hsegment, hbelow⟩ := h.stack
  have hheight := hsegment.height_le
  have hlength := hbelow.length_le
  rw [hstack, List.length_append, Nat.succ_mul]
  omega

theorem saved_eq (h : s.Running B H k n) : s.saved = k := by
  obtain ⟨operands, below, hstack, hops, _, hbelow⟩ := h.stack
  rw [saved, hstack, List.countP_append, countP_operands hops, hbelow.countP_eq, Nat.zero_add]

theorem control_ne_nil (h : s.Running B H k n) {id : Nat} {control : Value} {env : List Value}
    (hmem : .continuation id control env ∈ s.stack) : control ≠ .nil := by
  obtain ⟨operands, below, hstack, hops, _, hbelow⟩ := h.stack
  rw [hstack, List.mem_append] at hmem
  rcases hmem with hop | hmem
  · exact (Sound.not_continuation (hops _ hop).1).elim
  · exact hbelow.control_ne_nil hmem

theorem push (h : s.Running B H k 1) (hv : Fit B v) : (s.push v).Running B H k 0 := by
  obtain ⟨operands, below, hstack, hops, hsegment, hbelow⟩ := h.stack
  refine ⟨h.globals, h.env, v :: operands, below, ?_, ?_, hsegment, hbelow⟩
  · simp [State.push, hstack]
  · exact List.forall_mem_cons.2 ⟨hv, hops⟩

theorem with_nextObject (h : s.Running B H k n) (next : Nat) :
    State.Running B H k n { s with nextObject := next } :=
  ⟨h.globals, h.env, h.stack⟩

/-- A block starts without operands of its own. -/
theorem of_awaits (hg : ∀ name v, s.globals.find? name = some v → Fit B v)
    (he : ∀ v ∈ s.env, Fit B v) (ha : AwaitsWithin B H k s.stack)
    (hsegment : Segment B H s.env.length 0 s.control) : s.Running B H k 0 :=
  ⟨hg, he, [], s.stack, rfl, by simp, hsegment, ha⟩

/-- When a block or body is entered, its value is awaited: by what was saved, if
    instructions were left, or by whatever awaited a value before. -/
theorem awaits_save (h : s.Running B H k 1) :
    ∃ k', AwaitsWithin B H k' (s.save .unlessDone).stack ∧
      k' + s.nextContinuation ≤ k + (s.save .unlessDone).nextContinuation := by
  obtain ⟨operands, below, hstack, hops, hsegment, hbelow⟩ := h.stack
  by_cases hc : s.control = .nil
  · -- A tail call: with no instructions left, no operands are left beneath it either.
    have hb := hsegment.balanced
    rw [hc, Balanced.nil_iff] at hb
    rw [save, if_pos ⟨rfl, Value.isNil_iff.2 hc⟩, hstack,
      List.eq_nil_of_length_eq_zero (Nat.succ.inj hb)]
    exact ⟨k, hbelow, Nat.le_refl _⟩
  · rw [save, if_neg fun hp => hc (Value.isNil_iff.1 hp.2), hstack]
    refine ⟨k + 1, .continuation hc hsegment hops h.env hbelow, ?_⟩
    rw [Nat.add_right_comm]
    exact Nat.le_refl _

theorem call (hh : host.KeepsSound) (hB : Confines host B) (hH : ∀ code, B code → code.peak ≤ H)
    (h : s.Running B H k 1) {f : Value} {args : List Value} (hf : Fit B f)
    (ha : ∀ a ∈ args, Fit B a) (ht : s.call .unlessDone host f args = .ok t) :
    s.RunsOn B H k t := by
  fun_induction State.call .unlessDone host s f args with
  | case1 => cases ht
  | case2 f args ih =>
    rw [List.forall_mem_cons] at ha
    exact ih ha.1 ha.2 ht
  | case3 id arity hasRest code captured args env next hb =>
    cases ht
    have hcode : B code := hf.2 _ code (.self _) rfl
    obtain ⟨k', hawaits, hk⟩ := h.awaits_save
    refine ⟨k', of_awaits ?_ (.bodyEnv hb hf.captured ha) hawaits ⟨hcode, ?_, hH code hcode⟩, hk⟩
    · simpa using h.globals
    · rw [length_of_bodyEnv hb]
      exact (Sound.closure_iff.1 hf.1).1
  | case4 => cases ht
  | case5 f args v next hv =>
    cases ht
    have hfit : Fit B v := .of_behaviour hh hB ha hv
    exact ⟨k, (h.push hfit).with_nextObject next, Nat.le_refl _⟩
  | case6 => cases ht
  | case7 => cases ht

/-- An instruction whose operands are in the segment of the running block. -/
theorem execute (hh : host.KeepsSound) (hB : Confines host B)
    (hH : ∀ code, B code → code.peak ≤ H) {i : Instruction} {operands below : List Value}
    (hg : ∀ name v, s.globals.find? name = some v → Fit B v) (he : ∀ v ∈ s.env, Fit B v)
    (hstack : s.stack = operands ++ below) (hops : ∀ v ∈ operands, Fit B v)
    (hi : i.needed ≤ operands.length) (hf : Fits s.env.length i) (hcode : i.CodeIn B)
    (hsegment : Segment B H s.env.length (i.heightAfter operands.length) s.control)
    (hbelow : AwaitsWithin B H k below) (ht : s.execute .unlessDone host i = .ok t) :
    s.RunsOn B H k t := by
  -- What the instructions that only push a value need.
  have hpush {v : Value} (hv : Fit B v) (hheight : i.heightAfter operands.length =
      operands.length + 1) : (s.push v).Running B H k 0 :=
    push ⟨hg, he, operands, below, hstack, hops, hheight ▸ hsegment, hbelow⟩ hv
  cases hf with
  | push hv =>
    cases ht
    exact ⟨k, hpush ⟨hv, hcode⟩ rfl, Nat.le_refl _⟩
  | pop =>
    obtain ⟨v, rest, rfl⟩ := List.exists_cons_of_length_pos hi
    rw [List.cons_append] at hstack
    simp only [State.execute, hstack] at ht
    cases ht
    exact ⟨k, ⟨hg, he, rest, below, rfl, (List.forall_mem_cons.1 hops).2, hsegment, hbelow⟩,
      Nat.le_refl _⟩
  | access hindex =>
    simp only [State.execute, List.getElem?_eq_getElem hindex] at ht
    cases ht
    exact ⟨k, hpush (he _ (List.getElem_mem hindex)) rfl, Nat.le_refl _⟩
  | closure hb =>
    cases ht
    exact ⟨k, (hpush (.closure hcode hb he) rfl).with_nextObject _, Nat.le_refl _⟩
  | call =>
    obtain ⟨args, f, rest, rfl, rfl⟩ := exists_eq_append_call hi
    rw [List.append_assoc, List.cons_append] at hstack
    simp only [State.execute, hstack, takeCall_length, List.append_nil] at ht
    have hops := List.forall_mem_append.1 hops
    have hrest := List.forall_mem_cons.1 hops.2
    rw [heightAfter_call] at hsegment
    have hcall : Running B H k 1 { s with stack := rest ++ below } :=
      ⟨hg, he, rest, below, rfl, hrest.2, hsegment, hbelow⟩
    have hentered :=
      hcall.call hh hB hH hrest.1 (fun a ha => hops.1 a (List.mem_reverse.2 ha)) ht
    exact hentered
  | branch hthen helse =>
    obtain ⟨test, rest, rfl⟩ := List.exists_cons_of_length_pos hi
    rw [List.cons_append] at hstack
    simp only [State.execute, hstack] at ht
    cases ht
    have hbranch : Running B H k 1 { s with stack := rest ++ below } :=
      ⟨hg, he, rest, below, rfl, (List.forall_mem_cons.1 hops).2, hsegment, hbelow⟩
    obtain ⟨k', hawaits, hk⟩ := hbranch.awaits_save
    refine ⟨k', of_awaits (by simpa using hg) (by simpa using he) hawaits ?_, hk⟩
    rw [save_env]
    exact Segment.ite ⟨hcode.1, hthen, hH _ hcode.1⟩ ⟨hcode.2, helse, hH _ hcode.2⟩
  | @getGlobal _ name =>
    simp only [State.execute] at ht
    split at ht
    · rename_i v hv
      cases ht
      exact ⟨k, hpush (hg name v (Globals.get_eq_ok_iff.1 hv)) rfl, Nat.le_refl _⟩
    · cases ht
  | @setGlobal _ name =>
    obtain ⟨v, rest, rfl⟩ := List.exists_cons_of_length_pos hi
    rw [List.cons_append] at hstack
    simp only [State.execute, hstack] at ht
    cases ht
    refine ⟨k, ⟨fun other w hw => ?_, he, v :: rest, below, rfl, hops, hsegment, hbelow⟩,
      Nat.le_refl _⟩
    replace hw : (s.globals.bind name v).find? other = some w := hw
    rw [Globals.find?_bind] at hw
    split at hw
    · cases hw
      exact hops v List.mem_cons_self
    · exact hg other w hw

theorem step (hh : host.KeepsSound) (hB : Confines host B) (hH : ∀ code, B code → code.peak ≤ H)
    (h : s.Running B H k 0) (ht : s.step host = .ok t) : s.RunsOn B H k t := by
  obtain ⟨operands, below, hstack, hops, hsegment, hbelow⟩ := h.stack
  obtain hc | ⟨id, form, rest, hc⟩ := hsegment.balanced.eq_nil_or_pair
  · have hb := hsegment.balanced
    rw [hc, Balanced.nil_iff] at hb
    obtain ⟨v, rfl⟩ := List.length_eq_one_iff.1 hb
    cases hbelow with
    | bottom =>
      rw [State.step, stepWith_of_isDone (by simp [isDone, hc, hstack])] at ht
      cases ht
    | @continuation k _ _ _ _ _ _ hsegment hops' he hbelow =>
      rw [State.step, stepWith_resume hc hstack] at ht
      cases ht
      exact ⟨k, ⟨h.globals, he, v :: _, _, rfl,
        List.forall_mem_cons.2 ⟨hops v List.mem_cons_self, hops'⟩, hsegment, hbelow⟩,
        Nat.add_le_add_right (Nat.le_succ k) _⟩
  · rw [hc] at hsegment
    obtain ⟨i, hi, hn, hf, hb⟩ := Balanced.pair_iff.1 hsegment.balanced
    rw [State.step, stepWith_of_decode hc hi] at ht
    have hcode := hB.operands hsegment.code hi
    exact execute (s := { s with control := rest }) hh hB hH h.globals h.env hstack hops hn hf
      hcode (hsegment.rest hB hi hb) hbelow ht

theorem steps (hh : host.KeepsSound) (hB : Confines host B)
    (hH : ∀ code, B code → code.peak ≤ H) (h : s.Running B H k 0)
    (hst : Steps .unlessDone host n s t) : s.RunsOn B H k t := by
  induction hst generalizing k with
  | refl => exact ⟨k, h, Nat.le_refl _⟩
  | head hsu _ ih =>
    obtain ⟨k', hu, hk'⟩ := h.step hh hB hH hsu
    obtain ⟨k'', ht, hk''⟩ := ih hu
    exact ⟨k'', ht, by omega⟩

end State.Running

/-! ### The bound -/

/-- A run that saves nothing makes no continuations. -/
theorem Steps.nextContinuation_eq (h : Steps .unlessDone host n s t)
    (hsaves : ∀ m u, m < n → Steps .unlessDone host m s u → u.saves = false) :
    t.nextContinuation = s.nextContinuation := by
  induction h with
  | refl => rfl
  | @head n s u t hsu _ ih =>
    have hu := State.nextContinuation_step hsu
    rw [hsaves 0 s (Nat.succ_pos n) (.refl s)] at hu
    exact (ih fun m w hm hw => hsaves (m + 1) w (Nat.succ_lt_succ hm) (.head hsu hw)).trans hu

/-- What is known of the height of the stack in a state of a balanced run, with `H` as the
    largest peak. -/
structure State.Bounded (host : Host) (H : Nat) (t : State) : Prop where
  /-- Each continuation accounts for one segment, and the running block for another. -/
  length_le : t.stack.length ≤ (t.saved + 1) * H
  /-- What was saved has instructions left to run. -/
  control_ne_nil : ∀ id control env, .continuation id control env ∈ t.stack → control ≠ .nil
  /-- Only a branch or call with instructions behind it adds a continuation. -/
  saved_le : ∀ u, t.step host = .ok u → u.saved ≤ t.saved + if t.saves then 1 else 0
  /-- As long as branches and calls are in tail position, the bound stays the same. -/
  tail_le : ∀ n u, Steps .unlessDone host n t u →
    (∀ m w, m < n → Steps .unlessDone host m t w → w.saves = false) →
      u.stack.length ≤ (t.saved + 1) * H
  /-- A step that fails leaves no higher stack either. -/
  left_le : ∀ stop, t.step host = .error stop → stop.left.stack.length ≤ (t.saved + 1) * H

theorem State.Running.bounded (hh : host.KeepsSound) (hB : Confines host B)
    (hH : ∀ code, B code → code.peak ≤ H) (h : t.Running B H k 0) : t.Bounded host H := by
  have hlength := h.length_le
  obtain rfl := h.saved_eq
  refine ⟨hlength, fun id control env => h.control_ne_nil, fun u hu => ?_, fun n u hu htail => ?_,
    fun stop hstop => ?_⟩
  · obtain ⟨k, hrun, hk⟩ := h.step hh hB hH hu
    rw [nextContinuation_step hu] at hk
    rw [hrun.saved_eq]
    omega
  · obtain ⟨k, hrun, hk⟩ := h.steps hh hB hH hu
    rw [hu.nextContinuation_eq htail, Nat.add_le_add_iff_right] at hk
    exact hrun.length_le.trans (Nat.mul_le_mul_right H (Nat.succ_le_succ hk))
  · exact (consumed_of_stepWith hstop).stack.length_le.trans hlength

/-- A balanced block runs in one segment at first. -/
theorem Balanced.running {env : List Value} {code : Value} {g : Globals}
    {nextObject nextContinuation : Nat} (hb : Balanced env.length 0 code)
    (he : ∀ v ∈ env, Sound v) (hg : g.Sound) (hcode : B code) (hpeak : code.peak ≤ H)
    (hheld : ∀ v, State.Holds ⟨code, [], env, g, nextObject, nextContinuation⟩ v → CodeIn B v) :
    State.Running B H 0 0 ⟨code, [], env, g, nextObject, nextContinuation⟩ := by
  refine .of_awaits (fun name v hv => ⟨hg name v hv, hheld v (.globals hv)⟩)
    (fun v hv => ⟨he v hv, hheld v (.env hv)⟩) .bottom ⟨hcode, hb, hpeak⟩

/-- Tail calls keep the stack bounded. Let a balanced block run from the empty stack, with
    sound values in the environment and the globals and natives that keep values sound,
    and let `H` bound the peaks of the code that the run can come to. Then in every state
    that it comes to, with `k` continuations on the stack, the stack has at most
    `(k + 1) * H` entries; and a continuation comes on it only where instructions are left
    behind a branch or call. Where the natives make no functions, `H` is the largest peak
    of the blocks that are there at the start. -/
theorem stack_bounded {env : List Value} {code : Value} {g : Globals} (hh : host.KeepsSound)
    (hb : Balanced env.length 0 code) (he : ∀ v ∈ env, Sound v) (hg : g.Sound)
    (nextObject nextContinuation : Nat) :
    let start : State := ⟨code, [], env, g, nextObject, nextContinuation⟩
    (∀ B H, Confines host B → B code → (∀ v, start.Holds v → CodeIn B v) →
      (∀ c, B c → c.peak ≤ H) →
        ∀ n t, Steps .unlessDone host n start t → t.Bounded host H) ∧
      (host.PassesOn → ∃ H, IsGreatest (Value.peak '' {c | Block start c}) H ∧
        ∀ n t, Steps .unlessDone host n start t → t.Bounded host H) := by
  intro start
  have hbounded : ∀ B H, Confines host B → B code → (∀ v, start.Holds v → CodeIn B v) →
      (∀ c, B c → c.peak ≤ H) →
        ∀ n t, Steps .unlessDone host n start t → t.Bounded host H := by
    intro B H hB hcode hheld hH n t hst
    have hstart : start.Running B H 0 0 := hb.running he hg hcode (hH code hcode) hheld
    obtain ⟨k, hrun, _⟩ := hstart.steps hh hB hH hst
    exact hrun.bounded hh hB hH
  refine ⟨hbounded, fun hpasses => ?_⟩
  obtain ⟨H, hgreatest⟩ := exists_largest_peak start
  refine ⟨H, hgreatest, hbounded (Block start) H (hpasses.confines start) .program
    (fun v hv w c hw hc => .code (.held hv hw) hc) fun c hc => hgreatest.2 ⟨c, hc, rfl⟩⟩

/-- A call in tail position. -/
def tailCall : Value :=
  .pair 0 ((Instruction.call 0).encode 1).1 .nil

/-- The body of a function without parameters that calls itself by its global name. -/
def loopBody : Value :=
  .pair 10 ((Instruction.getGlobal "loop").encode 11).1 tailCall

/-- A run that enters the function and calls it for ever. -/
def loopStart : State :=
  ⟨loopBody, [], [], Globals.empty.bind "loop" (.closure 20 0 false loopBody []), 21, 0⟩

theorem loopBody_balanced : Balanced 0 0 loopBody :=
  .instr (i := .getGlobal "loop") rfl (Nat.le_refl 0) .getGlobal
    (.instr (i := .call 0) rfl (Nat.le_refl 1) .call .done)

/-- A program that calls what a global stands for, and then what this call returned. -/
def callsMade : Value :=
  .pair 12 ((Instruction.getGlobal "make").encode 13).1
    (.pair 14 ((Instruction.call 0).encode 15).1 tailCall)

/-- The code of the loop and of this program. -/
inductive CallCode : Value → Prop
  | loopBody : CallCode loopBody
  | callsMade : CallCode callsMade
  | callMade : CallCode (.pair 14 ((Instruction.call 0).encode 15).1 tailCall)
  | tailCall : CallCode tailCall
  | done : CallCode .nil

theorem CallCode.of_pair {id : Nat} {form rest : Value} (h : CallCode (.pair id form rest)) :
    CallCode rest ∧ ((∃ name, Instruction.decode form = .ok (.getGlobal name)) ∨
      Instruction.decode form = .ok (.call 0)) := by
  generalize hcode : Value.pair id form rest = code at h
  cases h with
  | loopBody =>
    obtain ⟨_, rfl, rfl⟩ := Value.pair.inj hcode
    exact ⟨.tailCall, .inl ⟨"loop", rfl⟩⟩
  | callsMade =>
    obtain ⟨_, rfl, rfl⟩ := Value.pair.inj hcode
    exact ⟨.callMade, .inl ⟨"make", rfl⟩⟩
  | callMade =>
    obtain ⟨_, rfl, rfl⟩ := Value.pair.inj hcode
    exact ⟨.tailCall, .inr rfl⟩
  | tailCall =>
    obtain ⟨_, rfl, rfl⟩ := Value.pair.inj hcode
    exact ⟨.done, .inr rfl⟩
  | done => cases hcode

theorem CallCode.confines : Confines .bare CallCode where
  rest h := h.of_pair.1
  operands h hi := by
    rcases h.of_pair.2 with ⟨name, hform⟩ | hform
    all_goals
      rw [hform] at hi
      cases hi
      trivial
  native hf := absurd hf (Array.not_mem_empty _)

theorem CallCode.peak_le {code : Value} (h : CallCode code) : code.peak ≤ 1 := by
  cases h <;> decide

/-- Where this code runs, and all that is given to it is a global with no other code, no block
    has more than one operand. -/
theorem CallCode.isGreatest_peak {code : Value} {name : String} (hcode : CallCode code)
    (hpeak : code.peak = 1) (hv : CodeIn CallCode v) (nextObject nextContinuation : Nat) :
    IsGreatest (Value.peak ''
      {c | Block ⟨code, [], [], Globals.empty.bind name v, nextObject, nextContinuation⟩ c}) 1 := by
  refine ⟨⟨code, .program, hpeak⟩, ?_⟩
  rintro _ ⟨c, hc, rfl⟩
  refine (hc.of_confines CallCode.confines hcode fun w hw => ?_).peak_le
  cases hw with
  | stack hw => cases hw
  | env hw => cases hw
  | @globals other w hw =>
    replace hw : (Globals.empty.bind name v).find? other = some w := hw
    rw [Globals.find?_bind] at hw
    split at hw
    · cases hw
      exact hv
    · cases hw

/-- No block of the loop has more than one operand, so its stack has one entry for each
    continuation and one more at most; and however often the function is called, the loop
    comes back to where it started. -/
theorem stack_bounded_loop :
    (Host.bare.KeepsSound ∧ Host.bare.PassesOn ∧ Balanced 0 0 loopBody ∧
        loopStart.globals.Sound) ∧
      IsGreatest (Value.peak '' {c | Block loopStart c}) 1 ∧
      (∀ n t, Steps .unlessDone .bare n loopStart t → t.Bounded .bare 1) ∧
      Steps .unlessDone .bare 2 loopStart loopStart := by
  have hb : Balanced ([] : List Value).length 0 loopBody := loopBody_balanced
  have hloop : Fit CallCode (.closure 20 0 false loopBody []) :=
    .closure .loopBody loopBody_balanced (by simp)
  have hg : loopStart.globals.Sound := Globals.Sound.empty.bind "loop" hloop.1
  have hgreatest : IsGreatest (Value.peak '' {c | Block loopStart c}) 1 :=
    CallCode.loopBody.isGreatest_peak (by decide) hloop.2 21 0
  obtain ⟨H, hH, hbounded⟩ :=
    (stack_bounded Host.keepsSound_bare hb (by simp) hg 21 0).2 Host.passesOn_bare
  obtain rfl : H = 1 := hH.unique hgreatest
  exact ⟨⟨Host.keepsSound_bare, Host.passesOn_bare, loopBody_balanced, hg⟩, hgreatest, hbounded,
    .head rfl (.single rfl)⟩

open Instruction in
/-- A body that pushes three values and drops two of them again. -/
def tallBody : Value :=
  (encodeAll [push .nil, push .nil, push .nil, pop, pop] 0).1

theorem tallBody_balanced : Balanced 0 0 tallBody := by
  refine .instr (i := .push .nil) rfl (by decide) (.push .nil) ?_
  refine .instr (i := .push .nil) rfl (by decide) (.push .nil) ?_
  refine .instr (i := .push .nil) rfl (by decide) (.push .nil) ?_
  refine .instr (i := .pop) rfl (by decide) .pop ?_
  exact .instr (i := .pop) rfl (by decide) .pop .done

/-- A host whose only native makes a function with this body. -/
def tallHost : Host :=
  ⟨#[fun _ next => .ok (.closure next 0 false tallBody [], next + 1)]⟩

theorem keepsSound_tallHost : tallHost.KeepsSound := by
  rintro f hf args next v next' _ hv
  obtain rfl := Array.mem_singleton.1 hf
  cases hv
  exact .closure tallBody_balanced (by simp)

theorem callsMade_balanced : Balanced 0 0 callsMade :=
  .instr (i := .getGlobal "make") rfl (Nat.le_refl 0) .getGlobal
    (.instr (i := .call 0) rfl (Nat.le_refl 1) .call
      (.instr (i := .call 0) rfl (Nat.le_refl 1) .call .done))

/-- That natives keep values sound is not enough for the largest peak at the start to bound the
    stack: they may make functions with higher bodies. No block of the program that calls what
    the native made has more than one operand, and yet three values come to lie on the stack,
    with no continuation among them. -/
theorem not_forall_stack_bounded :
    ¬ ∀ (host : Host) (env : List Value) (code : Value) (g : Globals)
      (nextObject nextContinuation H : Nat), host.KeepsSound → Balanced env.length 0 code →
      (∀ v ∈ env, Sound v) → g.Sound →
        let start : State := ⟨code, [], env, g, nextObject, nextContinuation⟩
        IsGreatest (Value.peak '' {c | Block start c}) H →
          ∀ n t, Steps .unlessDone host n start t → t.stack.length ≤ (t.saved + 1) * H := by
  intro hbounded
  let g : Globals := Globals.empty.bind "make" (.native (.hosted 0 "make"))
  let start : State := ⟨callsMade, [], [], g, 100, 0⟩
  have hg : g.Sound := Globals.Sound.empty.bind "make" .native
  have hmake : CodeIn CallCode (.native (.hosted 0 "make")) := by rintro _ code ⟨⟩ ⟨⟩
  have hgreatest : IsGreatest (Value.peak '' {c | Block start c}) 1 :=
    CallCode.callsMade.isGreatest_peak (by decide) hmake 100 0
  obtain ⟨t, hsteps, hstack, hsaved⟩ : ∃ t, Steps .unlessDone tallHost 6 start t ∧
      t.stack = [.nil, .nil, .nil] ∧ t.saved = 0 :=
    ⟨_, .head rfl (.head rfl (.head rfl (.head rfl (.head rfl (.single rfl))))), rfl, rfl⟩
  have hlength := hbounded tallHost [] callsMade g 100 0 1 keepsSound_tallHost callsMade_balanced
    (by simp) hg hgreatest 6 t hsteps
  rw [hstack, hsaved] at hlength
  exact absurd hlength (by decide)

end ConsMachine
