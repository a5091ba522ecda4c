import Mathlib.Data.Set.Finite.Lemmas
import ConsMachine.Proofs.Occurrences

/-!
# Segments of the stack

A block counts its operands, and its *peak* is the largest count that it comes to
(`Value.peak`). While a balanced program runs, the stack is divided into segments: the
operands of the running block, and beneath each continuation those of the block that it
resumes. No segment is higher than the peak of its block (`Segment`), and none is higher
either with the continuation on it, as the operands of the call or branch that saved it are
gone. So where no peak is above `H`, a stack with `k` continuations on which a value is
awaited has at most `k * H` entries (`AwaitsWithin.length_le`).

The peaks are those of the code that a run can come to, which is any set of code that neither
the instructions nor the natives lead out of (`Confines`). If the natives make no functions of
their own, the blocks that are there at the start are such a set (`Host.PassesOn.confines`),
the least there is (`Block.of_confines`), and there are finitely many of them
(`exists_largest_peak`).
-/

namespace ConsMachine

/-! ### Peaks -/

theorem Instruction.heightAfter_mono {m n : Nat} (h : m ≤ n) (i : Instruction) :
    i.heightAfter m ≤ i.heightAfter n := by
  cases i <;> simp only [heightAfter] <;> omega

namespace Value

/-- The largest number of operands in the rest of a block, with `height` of them left. -/
def peakFrom : (height : Nat) → Value → Nat
  | height, pair _ form rest =>
    match Instruction.decode form with
    | .ok i => max height (rest.peakFrom (i.heightAfter height))
    | .error _ => height
  | height, _ => height

/-- The largest number of operands that a block has of its own. -/
def peak (code : Value) : Nat :=
  code.peakFrom 0

variable {height id : Nat} {form rest : Value} {i : Instruction}

theorem le_peakFrom (height : Nat) (code : Value) : height ≤ code.peakFrom height := by
  unfold peakFrom
  split
  · split
    · exact Nat.le_max_left _ _
    · exact Nat.le_refl height
  · exact Nat.le_refl height

theorem peakFrom_pair (hi : Instruction.decode form = .ok i) :
    (pair id form rest).peakFrom height = max height (rest.peakFrom (i.heightAfter height)) := by
  rw [peakFrom, hi]

theorem peakFrom_mono {m n : Nat} (h : m ≤ n) (code : Value) :
    code.peakFrom m ≤ code.peakFrom n := by
  fun_induction peakFrom m code generalizing n with
  | case1 m id form rest i hi ih =>
    rw [peakFrom_pair hi]
    exact max_le_max h (ih (i.heightAfter_mono h))
  | case2 => exact h.trans (le_peakFrom n _)
  | case3 => exact h.trans (le_peakFrom n _)

/-- What remains of a block, taken as a block, has no larger peak. -/
theorem peak_rest_le (hi : Instruction.decode form = .ok i) :
    rest.peak ≤ (pair id form rest).peak := by
  rw [peak, peak, peakFrom_pair hi]
  exact (peakFrom_mono (Nat.zero_le _) rest).trans (Nat.le_max_right _ _)

end Value

/-- Of the blocks of a run, one has the largest peak. What remains of a block counts as a
    block too, which makes no difference (`Value.peak_rest_le`). -/
theorem exists_largest_peak (start : State) :
    ∃ H, IsGreatest (Value.peak '' {code | Block start code}) H := by
  obtain ⟨code, hcode, hmax⟩ :=
    Set.exists_max_image _ Value.peak (Block.finite start) ⟨start.control, .program⟩
  refine ⟨code.peak, ⟨code, hcode, rfl⟩, ?_⟩
  rintro _ ⟨other, hother, rfl⟩
  exact hmax other hother

/-! ### Code that is not left -/

/-- The functions and continuations in a value have their code in `B`. -/
def CodeIn (B : Value → Prop) (v : Value) : Prop :=
  ∀ w code, Part w v → w.code? = some code → B code

/-- The code in the operands of an instruction is in `B`. -/
def Instruction.CodeIn (B : Value → Prop) : Instruction → Prop
  | push v => ConsMachine.CodeIn B v
  | closure _ _ code => B code
  | branch thenCode elseCode => B thenCode ∧ B elseCode
  | _ => True

/-- A run that starts with code of `B` comes to no other: neither the instructions nor
    the natives of the host lead out of it. -/
structure Confines (host : Host) (B : Value → Prop) : Prop where
  rest {id : Nat} {form rest : Value} : B (.pair id form rest) → B rest
  operands {id : Nat} {form rest : Value} {i : Instruction} :
    B (.pair id form rest) → Instruction.decode form = .ok i → i.CodeIn B
  native {f : Native} {args : List Value} {next next' : Nat} {v : Value} :
    f ∈ host.natives → (∀ a ∈ args, Sound a ∧ CodeIn B a) → f args next = .ok (v, next') →
      CodeIn B v

/-- Natives that pass on what they are given leave a run with the code it starts from. -/
theorem Host.PassesOn.confines {host : Host} (h : host.PassesOn) (start : State) :
    Confines host (Block start) where
  rest := .rest
  operands {_ _ _ i} hblock hi := by
    cases i with
    | push v => exact fun w code hw hcode => .code (.pushed hblock hi hw) hcode
    | closure => exact .body hblock hi
    | branch => exact ⟨.thenCode hblock hi, .elseCode hblock hi⟩
    | _ => trivial
  native {f args next next' v} hf ha hv w code hw hcode := by
    obtain ⟨a, hmem, hpart⟩ := h f hf args next v next' hv w hw (by rw [hcode]; rfl)
    exact (ha a hmem).2 w code hpart hcode

mutual

/-- The blocks of a run are in any set of code that has what the run starts from and that no
    instruction leads out of. -/
theorem Block.of_confines {host : Host} {B : Value → Prop} {start : State} {code : Value}
    (hB : Confines host B) (hcode : B start.control) (hheld : ∀ v, start.Holds v → CodeIn B v)
    (h : Block start code) : B code :=
  match h with
  | .program => hcode
  | .code hw hcode' => hw.of_confines hB hcode hheld hcode'
  | .rest h => hB.rest (h.of_confines hB hcode hheld)
  | .thenCode h hi => (hB.operands (h.of_confines hB hcode hheld) hi).1
  | .elseCode h hi => (hB.operands (h.of_confines hB hcode hheld) hi).2
  | .body h hi => hB.operands (h.of_confines hB hcode hheld) hi

theorem Given.of_confines {host : Host} {B : Value → Prop} {start : State} {w code : Value}
    (hB : Confines host B) (hcode : B start.control) (hheld : ∀ v, start.Holds v → CodeIn B v)
    (h : Given start w) (hw : w.code? = some code) : B code :=
  match h with
  | .held hv hpart => hheld _ hv w code hpart hw
  | .pushed h hi hpart => hB.operands (h.of_confines hB hcode hheld) hi w code hpart hw

end

variable {B : Value → Prop} {host : Host} {H k : Nat} {v : Value}

/-! ### Values -/

/-- A value that a balanced run with code of `B` may come across. -/
def Fit (B : Value → Prop) (v : Value) : Prop :=
  Sound v ∧ CodeIn B v

namespace Fit

theorem nil : Fit B .nil := by
  refine ⟨.nil, ?_⟩
  rintro _ code ⟨⟩ ⟨⟩

theorem pair {id : Nat} {a d : Value} (ha : Fit B a) (hd : Fit B d) : Fit B (.pair id a d) := by
  refine ⟨.pair ha.1 hd.1, fun w code hw hcode => ?_⟩
  cases hw with
  | self => cases hcode
  | car hw => exact ha.2 w code hw hcode
  | cdr hw => exact hd.2 w code hw hcode

theorem closure {id arity : Nat} {hasRest : Bool} {code : Value} {env : List Value}
    (hcode : B code) (hb : Balanced (paramCount arity hasRest + env.length) 0 code)
    (he : ∀ v ∈ env, Fit B v) : Fit B (.closure id arity hasRest code env) := by
  refine ⟨.closure hb fun v hv => (he v hv).1, fun w other hw hother => ?_⟩
  cases hw with
  | self => cases hother; exact hcode
  | closure hv hw => exact (he _ hv).2 w other hw hother

theorem captured {id arity : Nat} {hasRest : Bool} {code : Value} {env : List Value}
    (h : Fit B (.closure id arity hasRest code env)) : ∀ v ∈ env, Fit B v :=
  fun v hv => ⟨(Sound.closure_iff.1 h.1).2 v hv, fun w other hw => h.2 w other (.closure hv hw)⟩

theorem ofList {vs : List Value} (h : ∀ v ∈ vs, Fit B v) (next : Nat) :
    Fit B (Value.ofList vs .nil next).1 := by
  induction vs with
  | nil => exact nil
  | cons v vs ih =>
    rw [List.forall_mem_cons] at h
    exact pair h.1 (ih h.2)

theorem bodyEnv {arity next next' : Nat} {hasRest : Bool} {captured args env : List Value}
    (h : bodyEnv arity hasRest captured args next = .ok (env, next'))
    (hc : ∀ v ∈ captured, Fit B v) (ha : ∀ v ∈ args, Fit B v) : ∀ v ∈ env, Fit B v :=
  forall_mem_bodyEnv h hc ha fun _ next hvs => ofList hvs next

/-- What a native returns is fit if its arguments are. -/
theorem of_behaviour (hh : host.KeepsSound) (hB : Confines host B) {f : NativeRef}
    {args : List Value} {next next' : Nat} (ha : ∀ a ∈ args, Fit B a)
    (h : host.behaviour f args next = .ok (v, next')) : Fit B v := by
  refine ⟨hh.behaviour f args next v next' (fun a hmem => (ha a hmem).1) h, ?_⟩
  have hbehaviour := Host.forall_behaviour
    (P := fun f => f args next = .ok (v, next') → CodeIn B v) (h := host) (fun op hv => ?_)
    (fun f hf => hB.native hf ha) (by rintro e ⟨⟩) f
  · exact hbehaviour h
  · intro w code hw hcode
    obtain ⟨a, hmem, hpart⟩ := op.passesOn_run args next v next' hv w hw (by rw [hcode]; rfl)
    exact (ha a hmem).2 w code hpart hcode

end Fit

/-! ### Segments -/

/-- What remains of a block with `height` operands in its segment, and never more than
    `H` of them. -/
structure Segment (B : Value → Prop) (H len height : Nat) (control : Value) : Prop where
  code : B control
  balanced : Balanced len height control
  peak_le : control.peakFrom height ≤ H

namespace Segment

variable {len height : Nat} {control : Value}

theorem height_le (h : Segment B H len height control) : height ≤ H :=
  (Value.le_peakFrom height control).trans h.peak_le

theorem rest {id : Nat} {form rest : Value} {i : Instruction} (hB : Confines host B)
    (h : Segment B H len height (.pair id form rest)) (hi : Instruction.decode form = .ok i)
    (hb : Balanced len (i.heightAfter height) rest) :
    Segment B H len (i.heightAfter height) rest := by
  refine ⟨hB.rest h.code, hb, ?_⟩
  have hpeak := h.peak_le
  rw [Value.peakFrom_pair hi] at hpeak
  exact (Nat.le_max_right _ _).trans hpeak

/-- Either branch of a block has its own segment. -/
theorem ite {b : Bool} {thenCode elseCode : Value} (hthen : Segment B H len height thenCode)
    (helse : Segment B H len height elseCode) :
    Segment B H len height (if b then thenCode else elseCode) := by
  split
  · exact hthen
  · exact helse

end Segment

/-- A stack on which one value is awaited, with `k` continuations on it: each of them has
    something left to run, and with the value that it waits for its segment is no higher
    than the block allows. -/
inductive AwaitsWithin (B : Value → Prop) (H : Nat) : (k : Nat) → List Value → Prop
  | bottom : AwaitsWithin B H 0 []
  | continuation {k id : Nat} {control : Value} {env operands below : List Value} :
      control ≠ .nil → Segment B H env.length (operands.length + 1) control →
      (∀ v ∈ operands, Fit B v) → (∀ v ∈ env, Fit B v) → AwaitsWithin B H k below →
      AwaitsWithin B H (k + 1) (.continuation id control env :: (operands ++ below))

/-- Whether a value is a continuation. -/
def Value.isContinuation : Value → Bool
  | continuation .. => true
  | _ => false

/-- The number of continuations on the stack. -/
def State.saved (s : State) : Nat :=
  s.stack.countP Value.isContinuation

/-- No operand of a block is a continuation. -/
theorem countP_operands {operands : List Value} (h : ∀ v ∈ operands, Fit B v) :
    operands.countP Value.isContinuation = 0 := by
  refine List.countP_eq_zero.2 fun v hv hcont => ?_
  cases v with
  | continuation => exact Sound.not_continuation (h _ hv).1
  | _ => cases hcont

namespace AwaitsWithin

variable {stack : List Value}

theorem length_le (h : AwaitsWithin B H k stack) : stack.length ≤ k * H := by
  induction h with
  | bottom => exact Nat.zero_le _
  | continuation _ hsegment _ _ _ ih =>
    have hheight := hsegment.height_le
    rw [List.length_cons, List.length_append, Nat.succ_mul]
    omega

theorem countP_eq (h : AwaitsWithin B H k stack) : stack.countP Value.isContinuation = k := by
  induction h with
  | bottom => rfl
  | continuation _ _ hops _ _ ih =>
    rw [List.countP_cons_of_pos rfl, List.countP_append, countP_operands hops, ih, Nat.zero_add]

theorem control_ne_nil (h : AwaitsWithin B H k stack) {id : Nat} {control : Value}
    {env : List Value} (hmem : .continuation id control env ∈ stack) : control ≠ .nil := by
  induction h with
  | bottom => cases hmem
  | continuation hne _ hops _ _ ih =>
    rcases List.mem_cons.1 hmem with heq | hmem
    · cases heq
      exact hne
    · rcases List.mem_append.1 hmem with hop | hmem
      · exact (Sound.not_continuation (hops _ hop).1).elim
      · exact ih hmem

end AwaitsWithin

end ConsMachine
