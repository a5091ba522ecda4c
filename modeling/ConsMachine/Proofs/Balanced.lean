import ConsMachine.Machine.Step

/-!
# Balanced blocks and sound values

A block is *balanced* when counting is enough to see that it never lacks an
operand and leaves exactly one. The count starts at zero and says how many
operands the block itself has pushed and not yet used up (`Instruction.needed`,
`Instruction.heightAfter`). A block is balanced for the environments of one
length: it has no position beyond it, its branches are balanced for the same
length, and the code of a closure for this length and the parameters of the
closure.

A value is *sound* when it has no continuation in it, and the code of every
closure in it is balanced for the parameters and the captured environment. What
a balanced block pushes must be sound, so the two notions are defined together.

Built-in natives keep values sound (`Builtin.keepsSound_run`); that the natives
of a host do is an assumption on the host (`Host.KeepsSound`).
-/

namespace ConsMachine

/-! ### Counting operands -/

namespace Instruction

/-- The number of operands that an instruction needs. -/
def needed : Instruction → Nat
  | pop | branch .. | setGlobal _ => 1
  | call count => count + 1
  | push _ | access _ | closure .. | getGlobal _ => 0

/-- The number of operands after an instruction, where `height` is the number
    before. -/
def heightAfter (height : Nat) : Instruction → Nat
  | push _ | access _ | closure .. | getGlobal _ => height + 1
  | pop => height - 1
  | call count => height - count
  | branch .. | setGlobal _ => height

end Instruction

/-- The number of entries that the arguments of a closure take in the environment
    of its body: the rest of the arguments is one list. -/
def paramCount (arity : Nat) (hasRest : Bool) : Nat :=
  arity + if hasRest then 1 else 0

/-! ### Balance and soundness -/

mutual

/-- The rest of a block is balanced for environments of length `len`, where
    `height` operands are left of those that the block has pushed so far. -/
inductive Balanced : (len height : Nat) → Value → Prop
  | done {len : Nat} : Balanced len 1 .nil
  | instr {len height id : Nat} {form rest : Value} {i : Instruction} :
      Instruction.decode form = .ok i → i.needed ≤ height → Fits len i →
      Balanced len (i.heightAfter height) rest → Balanced len height (.pair id form rest)

/-- The operands of an instruction are as a balanced block needs them, for
    environments of length `len`. -/
inductive Fits : (len : Nat) → Instruction → Prop
  | push {len : Nat} {v : Value} : Sound v → Fits len (.push v)
  | pop {len : Nat} : Fits len .pop
  | access {len index : Nat} : index < len → Fits len (.access index)
  | closure {len arity : Nat} {hasRest : Bool} {code : Value} :
      Balanced (paramCount arity hasRest + len) 0 code → Fits len (.closure arity hasRest code)
  | call {len count : Nat} : Fits len (.call count)
  | branch {len : Nat} {thenCode elseCode : Value} :
      Balanced len 0 thenCode → Balanced len 0 elseCode → Fits len (.branch thenCode elseCode)
  | getGlobal {len : Nat} {name : String} : Fits len (.getGlobal name)
  | setGlobal {len : Nat} {name : String} : Fits len (.setGlobal name)

/-- A value has no continuation in it, and no closure whose code is not balanced. -/
inductive Sound : Value → Prop
  | nil : Sound .nil
  | bool {b : Bool} : Sound (.bool b)
  | number {n : Int64} : Sound (.number n)
  | symbol {name : String} : Sound (.symbol name)
  | pair {id : Nat} {a d : Value} : Sound a → Sound d → Sound (.pair id a d)
  | native {f : NativeRef} : Sound (.native f)
  | closure {id arity : Nat} {hasRest : Bool} {code : Value} {env : List Value} :
      Balanced (paramCount arity hasRest + env.length) 0 code → (∀ v ∈ env, Sound v) →
      Sound (.closure id arity hasRest code env)
  | apply : Sound .apply

end

/-- A balanced block leaves exactly one operand. -/
theorem Balanced.nil_iff {len height : Nat} : Balanced len height .nil ↔ height = 1 := by
  constructor
  · rintro ⟨⟩
    rfl
  · rintro rfl
    exact .done

theorem Balanced.pair_iff {len height id : Nat} {form rest : Value} :
    Balanced len height (.pair id form rest) ↔
      ∃ i, Instruction.decode form = .ok i ∧ i.needed ≤ height ∧ Fits len i ∧
        Balanced len (i.heightAfter height) rest := by
  constructor
  · rintro ⟨⟩
    exact ⟨_, ‹_›, ‹_›, ‹_›, ‹_›⟩
  · rintro ⟨i, hi, hn, hf, hb⟩
    exact .instr hi hn hf hb

/-- A balanced block is a list. -/
theorem Balanced.eq_nil_or_pair {len height : Nat} {code : Value} (h : Balanced len height code) :
    code = .nil ∨ ∃ id form rest, code = .pair id form rest := by
  cases h with
  | done => exact .inl rfl
  | instr => exact .inr ⟨_, _, _, rfl⟩

/-- Both branches are balanced, whichever is selected. -/
theorem Balanced.ite {len height : Nat} {b : Bool} {thenCode elseCode : Value}
    (hthen : Balanced len height thenCode) (helse : Balanced len height elseCode) :
    Balanced len height (if b then thenCode else elseCode) := by
  split
  · exact hthen
  · exact helse

theorem Sound.closure_iff {id arity : Nat} {hasRest : Bool} {code : Value} {env : List Value} :
    Sound (.closure id arity hasRest code env) ↔
      Balanced (paramCount arity hasRest + env.length) 0 code ∧ ∀ v ∈ env, Sound v := by
  constructor
  · rintro ⟨⟩
    exact ⟨‹_›, ‹_›⟩
  · rintro ⟨hcode, henv⟩
    exact .closure hcode henv

theorem Sound.not_continuation {id : Nat} {control : Value} {env : List Value} :
    ¬ Sound (.continuation id control env) := by
  rintro ⟨⟩

theorem Sound.ofList {vs : List Value} {tail : Value} (next : Nat)
    (hvs : ∀ v ∈ vs, Sound v) (ht : Sound tail) : Sound (Value.ofList vs tail next).1 := by
  induction vs with
  | nil => exact ht
  | cons v vs ih =>
    rw [List.forall_mem_cons] at hvs
    exact .pair hvs.1 (ih hvs.2)

/-- The environment of a body has an entry for each parameter and for each
    captured value. -/
theorem length_of_bodyEnv {arity next next' : Nat} {hasRest : Bool}
    {captured args env : List Value}
    (h : bodyEnv arity hasRest captured args next = .ok (env, next')) :
    env.length = paramCount arity hasRest + captured.length := by
  unfold bodyEnv at h
  split at h
  · cases h
  split at h
  · rename_i hr
    cases h
    simp [paramCount, hr]
    omega
  split at h
  · cases h
  · rename_i hr _
    cases h
    simp [paramCount, hr]
    omega

/-- The environment of a body is made of the arguments, a list of some of them, and
    the captured values. -/
theorem forall_mem_bodyEnv {P : Value → Prop} {arity next next' : Nat} {hasRest : Bool}
    {captured args env : List Value}
    (h : bodyEnv arity hasRest captured args next = .ok (env, next'))
    (hc : ∀ v ∈ captured, P v) (ha : ∀ v ∈ args, P v)
    (hlist : ∀ vs next, (∀ v ∈ vs, P v) → P (Value.ofList vs .nil next).1) :
    ∀ v ∈ env, P v := by
  unfold bodyEnv at h
  split at h
  · cases h
  split at h
  · cases h
    rw [List.forall_mem_append, List.forall_mem_cons]
    exact ⟨fun v hv => ha v (List.mem_of_mem_take hv),
      hlist _ _ fun v hv => ha v (List.mem_of_mem_drop hv), hc⟩
  split at h
  · cases h
  · cases h
    rw [List.forall_mem_append]
    exact ⟨ha, hc⟩

theorem Sound.bodyEnv {arity next next' : Nat} {hasRest : Bool} {captured args env : List Value}
    (h : bodyEnv arity hasRest captured args next = .ok (env, next'))
    (hc : ∀ v ∈ captured, Sound v) (ha : ∀ v ∈ args, Sound v) : ∀ v ∈ env, Sound v :=
  forall_mem_bodyEnv h hc ha fun _ next hvs => .ofList next hvs .nil

open Instruction in
/-- A call of a function that branches on its argument and binds a global. -/
def sampleCall : Value :=
  (encodeAll [
    closure 1 false (encodeAll [
      access 0,
      branch (encodeAll [push (.number 1)] 0).1 (encodeAll [push (.number 2)] 0).1,
      setGlobal "x"] 0).1,
    push (.bool true),
    call 1] 0).1

theorem sampleCall_balanced : Balanced 0 0 sampleCall := by
  refine .instr (i := .closure ..) rfl (Nat.le_refl 0) (.closure ?_) ?_
  · refine .instr (i := .access 0) rfl (by decide) (.access (by decide)) ?_
    refine .instr (i := .branch ..) rfl (by decide) (.branch ?_ ?_) ?_
    · exact .instr rfl (by decide) (.push .number) .done
    · exact .instr rfl (by decide) (.push .number) .done
    · exact .instr rfl (by decide) .setGlobal .done
  · refine .instr (i := .push (.bool true)) rfl (by decide) (.push .bool) ?_
    exact .instr (i := .call 1) rfl (by decide) .call .done

/-! ### Globals -/

/-- All globals are sound. -/
def Globals.Sound (g : Globals) : Prop :=
  ∀ name v, g.find? name = some v → ConsMachine.Sound v

namespace Globals

theorem Sound.empty : Globals.empty.Sound := by
  rintro name v ⟨⟩

theorem Sound.get {g : Globals} (hg : g.Sound) {name : String} {v : Value}
    (h : g.get name = .ok v) : ConsMachine.Sound v :=
  hg name v (get_eq_ok_iff.1 h)

theorem Sound.bind {g : Globals} (hg : g.Sound) (name : String) {v : Value}
    (hv : ConsMachine.Sound v) : (g.bind name v).Sound := by
  intro other w h
  rw [find?_bind] at h
  split at h
  · cases h
    exact hv
  · exact hg other w h

/-- The table a new engine starts with is sound. -/
theorem Sound.initial : Globals.initial.Sound :=
  fun _ _ => forall_initial .apply fun _ => .native

end Globals

/-! ### Natives -/

/-- A native returns sound values for sound arguments. -/
def Native.KeepsSound (f : Native) : Prop :=
  ∀ args next v next', (∀ a ∈ args, Sound a) → f args next = .ok (v, next') → Sound v

/-- All natives of a host return sound values for sound arguments. -/
def Host.KeepsSound (host : Host) : Prop :=
  ∀ f ∈ host.natives, f.KeepsSound

theorem Host.keepsSound_bare : Host.bare.KeepsSound :=
  fun f hf => absurd hf (Array.not_mem_empty f)

/-- A converted argument is sound if it is a value that is. -/
def ParamType.SoundCarrier : (t : ParamType) → t.Carrier → Prop
  | .value, v => Sound v
  | _, _ => True

/-- The values among the converted arguments are sound. -/
def Arguments.Sound : (ts : List ParamType) → Arguments ts → Prop
  | [], _ => True
  | t :: ts, (a, as) => t.SoundCarrier a ∧ Arguments.Sound ts as

theorem ParamType.soundCarrier_of_convert {t : ParamType} {v : Value} {a : t.Carrier}
    (hv : Sound v) (h : t.convert v = .ok a) : t.SoundCarrier a := by
  cases t with
  | value => cases h; exact hv
  | _ => trivial

theorem Arguments.Sound.take {ts : List ParamType} {vs rest : List Value}
    {hle : ts.length ≤ vs.length} {as : Arguments ts} (hvs : ∀ v ∈ vs, ConsMachine.Sound v)
    (h : Arguments.take ts vs hle = .ok (as, rest)) : Arguments.Sound ts as := by
  fun_induction Arguments.take ts vs hle with
  | case1 => trivial
  | case2 t ts v vs hle ih =>
    rw [List.forall_mem_cons] at hvs
    cases ha : t.convert v with
    | error e => rw [ha] at h; cases h
    | ok a =>
      cases hr : Arguments.take ts vs (Nat.le_of_succ_le_succ hle) with
      | error e => rw [ha, hr] at h; cases h
      | ok r =>
        rw [ha, hr] at h
        cases h
        exact ⟨ParamType.soundCarrier_of_convert hvs.1 ha, ih hvs.2 hr⟩

/-- A typed native is its body, on the arguments it converted. -/
theorem Native.typed_eq_ok {ts : List ParamType} {body : Arguments ts → Alloc Value}
    {args : List Value} {next : Nat} {r : Value × Nat}
    (h : Native.typed ts body args next = .ok r) :
    ∃ as rest hle, Arguments.take ts args hle = .ok (as, rest) ∧ body as next = .ok r := by
  unfold Native.typed at h
  split at h
  · rename_i hl
    cases ht : Arguments.take ts args (Nat.le_of_eq hl.symm) with
    | error e =>
      rw [ht] at h
      cases h
    | ok r =>
      rw [ht] at h
      exact ⟨r.1, r.2, _, ht, h⟩
  · cases h

theorem Native.KeepsSound.typed {ts : List ParamType} {body : Arguments ts → Alloc Value}
    (h : ∀ as next v next', Arguments.Sound ts as → body as next = .ok (v, next') → Sound v) :
    (Native.typed ts body).KeepsSound := by
  intro args next v next' ha hv
  obtain ⟨as, rest, hle, ht, hb⟩ := Native.typed_eq_ok hv
  exact h as next v next' (Arguments.Sound.take ha ht) hb

/-- The halves of a sound pair are sound. -/
theorem Sound.car {v w : Value} (hv : Sound v) (h : v.car = .ok w) : Sound w := by
  cases hv with
  | pair ha _ => cases h; exact ha
  | _ => cases h

theorem Sound.cdr {v w : Value} (hv : Sound v) (h : v.cdr = .ok w) : Sound w := by
  cases hv with
  | pair _ hd => cases h; exact hd
  | _ => cases h

/-- The built-in natives keep values sound. -/
theorem Builtin.keepsSound_run (op : Builtin) : op.run.KeepsSound := by
  cases op <;> rw [run] <;> refine Native.KeepsSound.typed (fun as next v next' hs h => ?_)
  case cons =>
    cases h
    exact .pair hs.1 hs.2.1
  case car =>
    obtain ⟨w, ⟨⟩⟩ := as
    cases hw : w.car with
    | error e => simp only [hw] at h; cases h
    | ok a => simp only [hw] at h; cases h; exact hs.1.car hw
  case cdr =>
    obtain ⟨w, ⟨⟩⟩ := as
    cases hw : w.cdr with
    | error e => simp only [hw] at h; cases h
    | ok d => simp only [hw] at h; cases h; exact hs.1.cdr hw
  case isSymbol | isPair | isAtom | isSame =>
    cases h
    exact .bool
  case add =>
    obtain ⟨a, b, ⟨⟩⟩ := as
    cases hn : Number.add? a b with
    | none => simp only [hn] at h; cases h
    | some n => simp only [hn] at h; cases h; exact .number
  case sub =>
    obtain ⟨a, b, ⟨⟩⟩ := as
    cases hn : Number.sub? a b with
    | none => simp only [hn] at h; cases h
    | some n => simp only [hn] at h; cases h; exact .number

/-- On a host whose own natives keep values sound, all do. -/
theorem Host.KeepsSound.behaviour {host : Host} (h : host.KeepsSound) (f : NativeRef) :
    (host.behaviour f).KeepsSound :=
  Host.forall_behaviour Builtin.keepsSound_run h (by rintro e args next v next' _ ⟨⟩) f

end ConsMachine
