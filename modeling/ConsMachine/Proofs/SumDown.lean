import ConsMachine.Proofs.Computations
import ConsMachine.Proofs.Histories
import ConsMachine.Proofs.InstructionForms
import ConsMachine.Proofs.WholeTexts

/-!
# A sum by recursion

The function `sum-down` adds its argument to what it returns for the number below, and is
called for this one through its global, before the sum: each call leaves operands and a
continuation behind, until the argument is 0. `Session.runText_sumDown` says what comes of
it for every argument, from the text of the definition on: the sum, if 64 bits hold it, and
otherwise an overflow. A sum that is too great is noticed on the way back, and a negative
argument at the least number.

A call computes what it does from what the call for the number below computes
(`computes_sum`), so the proof is by counting down (`down_induction`).
-/

namespace ConsMachine

open Instruction

variable {host : Host} {n p : Int64}

/-! ### The sum -/

/-- A number, or an error if there is none. -/
def numberOr (overflow : String) : Option Int64 → Except Error Value
  | some n => .ok (.number n)
  | none => .error (.evaluation overflow)

theorem exists_of_numberOr_eq_ok {overflow : String} {o : Option Int64} {v : Value}
    (h : numberOr overflow o = .ok v) : ∃ n, o = some n ∧ v = .number n := by
  cases o with
  | none => cases h
  | some n => exact ⟨n, rfl, (Except.ok.inj h).symm⟩

theorem of_numberOr_eq_error {overflow : String} {o : Option Int64} {e : Error}
    (h : numberOr overflow o = .error e) : o = none ∧ e = .evaluation overflow := by
  cases o with
  | none => exact ⟨rfl, (Except.error.inj h).symm⟩
  | some n => cases h

/-- What `sum-down` returns: the sum of the numbers from 0 to `n`, if 64 bits hold it. There is
    no difference for the least number, so there is none for any negative number. -/
def sumDown (n : Int64) : Except Error Value :=
  if n < 0 then .error (.evaluation "Integer overflow in subtraction")
  else numberOr "Integer overflow in addition" (Number.ofInt? (n.toInt * (n.toInt + 1) / 2))

example : sumDown 1000 = .ok (.number 500500) := rfl

theorem sum_eq (i : Int) : i * (i + 1) / 2 = i + (i - 1) * (i - 1 + 1) / 2 := by
  have hsplit : i * (i + 1) = (i - 1) * (i - 1 + 1) + i * 2 := by grind
  rw [hsplit, Int.add_mul_ediv_right _ _ (by decide), Int.add_comm]

theorem toInt_of_sub? (hp : Number.sub? n 1 = some p) : p.toInt = n.toInt - 1 :=
  Number.ofInt?_eq_some_iff.1 hp

theorem neg_iff {n : Int64} : n < 0 ↔ n.toInt < 0 :=
  Int64.lt_iff_toInt_lt

/-- There is a number below each one that is not negative. -/
theorem neg_of_sub?_eq_none (hp : Number.sub? n 1 = none) : n < 0 := by
  rw [Number.sub?, Number.ofInt?_eq_none_iff] at hp
  have hle : n.toInt ≤ Int64.maxValue.toInt := n.toInt_le
  have hone : (1 : Int64).toInt = 1 := rfl
  have hmin : Int64.minValue.toInt < 0 := by decide
  exact neg_iff.2 (by omega)

/-- The sum for `n` is `n` and the sum for the number below, if there is one. -/
theorem sumDown_eq (hn : n ≠ 0) (hp : Number.sub? n 1 = some p) :
    (∃ m, sumDown p = .ok (.number m) ∧
      sumDown n = numberOr "Integer overflow in addition" (Number.add? n m)) ∨
    ∃ e, sumDown p = .error e ∧ sumDown n = .error e := by
  have hpn : p.toInt = n.toInt - 1 := toInt_of_sub? hp
  have hne : n.toInt ≠ 0 := fun h => hn (Int64.toInt_inj.1 h)
  by_cases hneg : n < 0
  · rw [neg_iff] at hneg
    exact .inr ⟨_, if_pos (neg_iff.2 (by omega)), if_pos (neg_iff.2 hneg)⟩
  · rw [neg_iff] at hneg
    have hn' : ¬n < 0 := neg_iff.not.2 hneg
    have hp' : ¬p < 0 := neg_iff.not.2 (by omega)
    rw [sumDown, sumDown, if_neg hn', if_neg hp', sum_eq n.toInt, ← hpn]
    cases hsum : Number.ofInt? (p.toInt * (p.toInt + 1) / 2) with
    | some m =>
      rw [← Number.ofInt?_eq_some_iff.1 hsum]
      exact .inl ⟨m, rfl, rfl⟩
    | none =>
      have hnonneg : 0 ≤ p.toInt * (p.toInt + 1) / 2 :=
        Int.ediv_nonneg (Int.mul_nonneg (by omega) (by omega)) (by decide)
      -- What does not fit is too great, and with `n` even more so.
      have hover : Number.ofInt? (n.toInt + p.toInt * (p.toInt + 1) / 2) = none := by
        rw [Number.ofInt?_eq_none_iff] at hsum ⊢
        have hmin : Int64.minValue.toInt ≤ 0 := by decide
        omega
      rw [hover]
      exact .inr ⟨_, rfl, rfl⟩

/-- Counting down comes to 0, or below the least number. -/
theorem down_induction {P : Int64 → Prop} (zero : P 0)
    (last : ∀ n, n ≠ 0 → Number.sub? n 1 = none → P n)
    (down : ∀ n p, n ≠ 0 → Number.sub? n 1 = some p → P p → P n) (n : Int64) : P n := by
  have hstep (n : Int64) (hn : n ≠ 0) (h : ∀ p : Int64, p.toInt = n.toInt - 1 → P p) : P n := by
    cases hp : Number.sub? n 1 with
    | none => exact last n hn hp
    | some p => exact down n p hn hp (h p (toInt_of_sub? hp))
  have hne {n : Int64} (h : n.toInt ≠ 0) : n ≠ 0 := fun heq => h (by rw [heq]; rfl)
  have hnonneg (k : Nat) : ∀ n : Int64, n.toInt = k → P n := by
    induction k with
    | zero =>
      intro n hn
      have hzero : n = 0 := Int64.toInt_inj.1 (hn.trans rfl)
      rwa [hzero]
    | succ k ih => exact fun n hn => hstep n (hne (by omega)) fun p hp => ih p (by omega)
  -- Negative numbers are counted from the least one, which has none below it.
  have hneg (k : Nat) : ∀ n : Int64, n.toInt < 0 → n.toInt = Int64.minValue.toInt + k → P n := by
    induction k with
    | zero =>
      intro n hlt hn
      refine hstep n (hne (by omega)) fun p hp => ?_
      have hle := p.minValue_le_toInt
      omega
    | succ k ih =>
      exact fun n hlt hn => hstep n (hne (by omega)) fun p hp => ih p (by omega) (by omega)
  by_cases hlt : n.toInt < 0
  · have hle := n.minValue_le_toInt
    exact hneg (n.toInt - Int64.minValue.toInt).toNat n hlt (by omega)
  · exact hnonneg n.toInt.toNat n (by omega)

/-! ### The function -/

/-- The instructions of the function. -/
def sumDownBody (thenCode elseCode : Value) : List Instruction :=
  [getGlobal "eq?", access 0, push (.number 0), call 2, branch thenCode elseCode]

/-- The instructions for 0. -/
def sumDownThen : List Instruction :=
  [push (.number 0)]

/-- The instructions for any other number. -/
def sumDownElse : List Instruction :=
  [getGlobal "+", access 0, getGlobal "sum-down", getGlobal "-", access 0, push (.number 1),
    call 2, call 1, call 2]

/-- Code of the function. -/
structure IsSumDown (code thenCode elseCode : Value) : Prop where
  body : code.Codes (sumDownBody thenCode elseCode)
  thenCode : thenCode.Codes sumDownThen
  elseCode : elseCode.Codes sumDownElse

/-- The globals that the function uses. -/
structure Globals.HaveSumDown (g : Globals) (code : Value) : Prop where
  same : g.get "eq?" = .ok (.native (.builtin .isSame))
  add : g.get "+" = .ok (.native (.builtin .add))
  sub : g.get "-" = .ok (.native (.builtin .sub))
  self : ∃ id, g.get "sum-down" = .ok (.closure id 1 false code [])

/-- A native that computes with two numbers makes no objects. -/
theorem evalCall_arithmetic {op : Builtin} {compute : Int64 → Int64 → Option Int64}
    {overflow : String}
    (hop : op.run = .typed [.number, .number] fun (a, b, ()) =>
      match compute a b with
      | some n => pure (.number n)
      | none => throw (.evaluation overflow))
    (block : BlockEvaluator) (a b : Int64) (σ : Store) :
    evalCall host block (.native (.builtin op)) [.number a, .number b] σ =
      some (numberOr overflow (compute a b), σ) := by
  have hrun : host.behaviour (.builtin op) [.number a, .number b] σ.nextObject =
      (match compute a b with
        | some n => pure (.number n)
        | none => throw (.evaluation overflow) : Alloc Value) σ.nextObject := by
    rw [Host.behaviour, hop]
    rfl
  rw [evalCall, hrun]
  cases compute a b <;> rfl

section

variable {σ : Store} {code thenCode elseCode : Value}

/-- The function comes to one of its branches. -/
theorem computes_sumDownBody (hg : σ.globals.HaveSumDown code) {a : Except Error Value}
    (hbranch : ∃ depth, evalBody host depth [.number n]
      (if n == 0 then thenCode else elseCode) σ = some (a, σ)) :
    Computes host [.number n] [] (sumDownBody thenCode elseCode) σ (a, σ) := by
  refine .getGlobal hg.same (.access rfl (.push (.call [.number n, .number 0] ⟨0, rfl⟩ ?_ nofun)))
  rintro _ ⟨⟩
  have htest : (Value.bool ((Value.number n).same (.number 0))).isTrue = (n == 0) :=
    Value.isTrue_bool _
  rw [← htest] at hbranch
  exact .branch hbranch (fun _ => .done) fun e he => by rw [he]

/-- The number below comes first, if there is one. -/
theorem computes_sumDownElse (hg : σ.globals.HaveSumDown code) {self : Value}
    (hself : σ.globals.get "sum-down" = .ok self) {r : Except Error Value × Store}
    (hnone : Number.sub? n 1 = none →
      (.error (.evaluation "Integer overflow in subtraction"), σ) = r)
    (hsome : ∀ p, Number.sub? n 1 = some p → Computes host [.number n]
      [.number p, self, .number n, .native (.builtin .add)] [call 1, call 2] σ r) :
    Computes host [.number n] [] sumDownElse σ r := by
  refine .getGlobal hg.add (.access rfl (.getGlobal hself (.getGlobal hg.sub (.access rfl
    (.push (.call [.number n, .number 1] ⟨0, evalCall_arithmetic rfl _ _ _ _⟩
      (fun v hv => ?_) fun e he => ?_))))))
  · obtain ⟨p, hp, rfl⟩ := exists_of_numberOr_eq_ok hv
    exact hsome p hp
  · obtain ⟨hp, rfl⟩ := of_numberOr_eq_error he
    exact hnone hp

/-- The function adds its argument to what it computes for the number below. An error of the
    call for this one is also the error of the function: the sum comes only then. -/
theorem computes_sum {self : Value}
    (hcall : ∃ depth, evalCall host (evalBody host depth) self [.number p] σ =
      some (sumDown p, σ)) (hn : n ≠ 0) (hp : Number.sub? n 1 = some p) :
    Computes host [.number n] [.number p, self, .number n, .native (.builtin .add)]
      [call 1, call 2] σ (sumDown n, σ) := by
  obtain ⟨m, hm, hsum⟩ | ⟨e, he, hsum⟩ := sumDown_eq hn hp
  · rw [hm] at hcall
    rw [hsum]
    refine .call [.number p] hcall ?_ nofun
    rintro _ ⟨⟩
    exact .call [.number n, .number m] ⟨0, evalCall_arithmetic rfl _ _ _ _⟩ (fun _ => .done)
      fun e he => by rw [he]
  · rw [he] at hcall
    rw [hsum]
    refine .call [.number p] hcall nofun ?_
    rintro _ ⟨⟩
    rfl

/-- The function computes the sum. -/
theorem computes_sumDown (hg : σ.globals.HaveSumDown code)
    (hcode : IsSumDown code thenCode elseCode) (n : Int64) :
    Computes host [.number n] [] (sumDownBody thenCode elseCode) σ (sumDown n, σ) := by
  obtain ⟨id, hself⟩ := hg.self
  have helse {n : Int64} (hn : n ≠ 0)
      (h : Computes host [.number n] [] sumDownElse σ (sumDown n, σ)) :
      Computes host [.number n] [] (sumDownBody thenCode elseCode) σ (sumDown n, σ) := by
    refine computes_sumDownBody hg ?_
    rw [if_neg (by simpa using hn)]
    exact h.exists_evalBody hcode.elseCode
  induction n using down_induction with
  | zero =>
    have hthen : Computes host [.number 0] [] sumDownThen σ (sumDown 0, σ) := .push (.done rfl)
    exact computes_sumDownBody hg (hthen.exists_evalBody hcode.thenCode)
  | last n hn hp =>
    refine helse hn (computes_sumDownElse hg hself (fun _ => ?_) fun p hp' => ?_)
    · rw [sumDown, if_pos (neg_of_sub?_eq_none hp)]
    · rw [hp] at hp'
      cases hp'
  | down n p hn hp ih =>
    refine helse hn (computes_sumDownElse hg hself (fun hp' => ?_) fun p' hp' => ?_)
    · rw [hp] at hp'
      cases hp'
    · obtain rfl : p = p' := Option.some.inj (hp.symm.trans hp')
      exact computes_sum (ih.exists_evalCall hcode.body rfl) hn hp

end

/-! ### The texts -/

/-- The definition of the function. -/
def sumDownText : String := "
    (closure 1 #f (
        (get-global eq?) (access 0) (push 0) (call 2)
        (if ((push 0))
            ((get-global +) (access 0)
             (get-global sum-down) (get-global -) (access 0) (push 1) (call 2) (call 1)
             (call 2)))))
    (set-global sum-down)
    (pop)
"

/-- A call of the function. -/
def sumDownCall (n : Int64) : String :=
  "(get-global sum-down) (push " ++ Number.text n ++ ") (call 1)"

/-- The form of an operation with operands. -/
def formOf (op : Opcode) (operands : List Datum) : Datum :=
  .ofList (.symbol op.name :: operands) .nil

/-- The forms of the definition. -/
def sumDownForms : List Datum :=
  [formOf .closure [.number 1, .bool false, .ofList
      [formOf .getGlobal [.symbol "eq?"], formOf .access [.number 0], formOf .push [.number 0],
        formOf .call [.number 2], formOf .branch [
          .ofList [formOf .push [.number 0]] .nil,
          .ofList [formOf .getGlobal [.symbol "+"], formOf .access [.number 0],
            formOf .getGlobal [.symbol "sum-down"], formOf .getGlobal [.symbol "-"],
            formOf .access [.number 0], formOf .push [.number 1], formOf .call [.number 2],
            formOf .call [.number 1], formOf .call [.number 2]] .nil]] .nil],
    formOf .setGlobal [.symbol "sum-down"],
    formOf .pop []]

/-- The forms of a call. -/
def sumDownCallForms (n : Int64) : List Datum :=
  [formOf .getGlobal [.symbol "sum-down"], formOf .push [.number n], formOf .call [.number 1]]

set_option maxRecDepth 4000 in
theorem readAll_sumDownText : Datum.readAll sumDownText = .ok sumDownForms := by
  -- The tokens are found in the list of characters: decoding the text would take longer.
  obtain ⟨s, htext, hforms⟩ : ∃ s, sumDownText = String.ofList s ∧
      (Reader.start.feedAll (tokens s) >>= Reader.finish).toOption = some sumDownForms :=
    ⟨_, rfl, by decide +kernel⟩
  rw [Datum.readAll, htext, String.toList_ofList]
  exact mapError_eq_ok_iff.2 (eq_ok_of_toOption hforms)

/-- What is read binds the function to its name. -/
theorem exists_isSumDown (next : Nat) :
    ∃ code thenCode elseCode,
      ((Datum.ofList sumDownForms .nil).load next).1.Codes
        [closure 1 false code, setGlobal "sum-down", pop] ∧ IsSumDown code thenCode elseCode :=
  ⟨_, _, _, .cons rfl (.cons rfl (.cons rfl .nil)),
    .cons rfl (.cons rfl (.cons rfl (.cons rfl (.cons rfl .nil)))),
    .cons rfl .nil,
    .cons rfl (.cons rfl (.cons rfl (.cons rfl (.cons rfl (.cons rfl (.cons rfl (.cons rfl
      (.cons rfl .nil))))))))⟩

theorem toList_sumDownCall (n : Int64) : (sumDownCall n).toList =
    '(' :: ("get-global".toList ++ ' ' :: ("sum-down".toList ++ ')' :: ' ' ::
      '(' :: ("push".toList ++ ' ' :: ((Number.text n).toList ++ ')' :: ' ' ::
        '(' :: ("call".toList ++ ' ' :: ("1".toList ++ [')'])))))) := by
  change ("(get-global sum-down) (push " ++ Number.text n ++ ") (call 1)").toList = _
  simp

theorem Value.readable_symbol_iff {name : String} : (symbol name).Readable ↔
    (name.toList.all isWordChar && isSymbolName name.toList) = true := by
  simp [Readable]

theorem readable_name (op : Opcode) : (Value.symbol op.name).Readable :=
  Value.readable_symbol_iff.2 (by cases op <;> decide +kernel)

theorem readAll_sumDownCall (n : Int64) :
    Datum.readAll (sumDownCall n) = .ok (sumDownCallForms n) := by
  have hname : (Value.symbol "sum-down").Readable :=
    Value.readable_symbol_iff.2 (by decide +kernel)
  rw [Datum.readAll_eq_ok_iff, toList_sumDownCall]
  refine .list_cons (v := .symbol "sum-down") (readable_name .getGlobal) hname rfl rfl (.refl _)
    rfl ?_
  refine .list_cons (v := .number n) (readable_name .push) trivial rfl rfl (.space _) rfl ?_
  refine .list_cons (v := .number 1) (readable_name .call) trivial rfl rfl (.space _) rfl ?_
  exact .nil (.refl _)

theorem codes_sumDownCall (n : Int64) (next : Nat) :
    ((Datum.ofList (sumDownCallForms n) .nil).load next).1.Codes
      [getGlobal "sum-down", push (.number n), call 1] :=
  .cons rfl (.cons rfl (.cons rfl .nil))

/-! ### Runs of texts -/

theorem Outcome.left_globals {outcome : Outcome} {r : Except Error Value} {σ : Store}
    (h : outcome.answer = some (r, σ)) : outcome.left.globals = σ.globals := by
  cases outcome <;> cases h <;> rfl

/-- A definition is three instructions. -/
theorem State.run_define {code body : Value} {arity : Nat} {hasRest : Bool} {name : String}
    (hcode : code.Codes [closure arity hasRest body, setGlobal name, pop]) (g : Globals)
    (nextObject nextContinuation : Nat) :
    (⟨code, [], [], g, nextObject, nextContinuation⟩ : State).run host 3 =
      .finished ⟨.nil, [], [], g.bind name (.closure nextObject arity hasRest body []),
        nextObject + 1, nextContinuation⟩ := by
  rcases hcode with _ | ⟨hclosure, _ | ⟨hset, _ | ⟨hpop, ⟨⟩⟩⟩⟩
  refine run_eq_finished_iff.2 ⟨3, Nat.le_refl 3, ?_, rfl⟩
  exact .head (stepWith_of_decode rfl hclosure) (.head (stepWith_of_decode rfl hset)
    (.single (stepWith_of_decode rfl hpop)))

theorem IsSumDown.balanced {code thenCode elseCode : Value} (h : IsSumDown code thenCode elseCode) :
    Balanced 1 0 code := by
  have hthen : Balanced 1 0 thenCode := h.thenCode.balanced ⟨by decide, .push .number, rfl⟩
  have helse : Balanced 1 0 elseCode := h.elseCode.balanced (by
    simp [sumDownElse, BalancedAll, needed, heightAfter, Fits.getGlobal, Fits.call,
      Fits.access (show 0 < 1 by decide), Fits.push Sound.number])
  refine h.body.balanced ?_
  simp [sumDownBody, BalancedAll, needed, heightAfter, Fits.getGlobal, Fits.call,
      Fits.access (show 0 < 1 by decide), Fits.push Sound.number, Fits.branch hthen helse]

theorem haveSumDown_bind (id : Nat) (code : Value) :
    (Globals.initial.bind "sum-down" (.closure id 1 false code [])).HaveSumDown code where
  same := rfl
  add := rfl
  sub := rfl
  self := ⟨id, rfl⟩

namespace Session

/-- Read a text, run it on an engine for at most `limit` steps, and take over what the run
    leaves. -/
def runText (s : Session) (engine : Nat) (text : String) (limit : Nat) :
    Except Error (Outcome × Session) := do
  let (code, s) ← s.alloc (Alloc.readAll text)
  let outcome := (s.state engine code [] []).run s.host limit
  .ok (outcome, s.keep engine outcome.left)

theorem runText_eq {s : Session} {engine limit : Nat} {text : String} {ds : List Datum}
    (h : Datum.readAll text = .ok ds) :
    s.runText engine text limit =
      let loaded := (Datum.ofList ds .nil).load s.nextObject
      let read := { s with nextObject := loaded.2 }
      let outcome := (read.state engine loaded.1 [] []).run s.host limit
      .ok (outcome, read.keep engine outcome.left) := by
  rw [runText, alloc, Alloc.readAll_eq, h]
  rfl

/-- A run that leaves the globals of its engine alone changes no globals. -/
theorem globals_keep_self {s : Session} {engine : Nat} {t : State}
    (h : t.globals = s.globals engine) : (s.keep engine t).globals engine = s.globals engine := by
  rw [keep, h]
  simp only [globals, Array.getElem?_setIfInBounds_self]
  split
  · rename_i hlt
    rw [Array.getElem?_eq_getElem hlt]
    rfl
  · rename_i hge
    rw [Array.getElem?_eq_none (Nat.le_of_not_lt hge)]

/-- Where the function is bound, a call of it comes to the sum, and changes no globals. -/
theorem exists_runText_sumDownCall {s : Session} {engine : Nat} {code thenCode elseCode : Value}
    (hh : s.host.KeepsSound) (hg : (s.globals engine).Sound)
    (hhave : (s.globals engine).HaveSumDown code) (hcode : IsSumDown code thenCode elseCode)
    (n : Int64) :
    ∃ limit outcome t, s.runText engine (sumDownCall n) limit = .ok (outcome, t) ∧
      outcome.answer.map Prod.fst = some (sumDown n) ∧ t.globals engine = s.globals engine := by
  let loaded := (Datum.ofList (sumDownCallForms n) .nil).load s.nextObject
  let σ : Store := ⟨s.globals engine, loaded.2⟩
  obtain ⟨id, hself⟩ := hhave.self
  have hbody : Computes s.host [.number n] [] (sumDownBody thenCode elseCode) σ (sumDown n, σ) :=
    computes_sumDown hhave hcode n
  have hcall : ∃ depth, evalCall s.host (evalBody s.host depth) (.closure id 1 false code [])
      [.number n] σ = some (sumDown n, σ) := hbody.exists_evalCall hcode.body rfl
  have hcomputes : Computes s.host [] [] [getGlobal "sum-down", push (.number n), call 1] σ
      (sumDown n, σ) := by
    exact .getGlobal hself (.push (.call [.number n] hcall (fun _ => .done) fun e he => by rw [he]))
  have hbalanced : BalancedAll 0 0 [getGlobal "sum-down", push (.number n), call 1] :=
    ⟨Nat.zero_le _, .getGlobal, Nat.zero_le _, .push .number, Nat.le_refl 2, .call, rfl⟩
  obtain ⟨limit, hanswer⟩ := hcomputes.exists_answer_run hh (codes_sumDownCall n s.nextObject)
    hbalanced nofun hg s.nextContinuation
  refine ⟨limit, _, _, runText_eq (readAll_sumDownCall n), ?_, globals_keep_self ?_⟩
  · exact congrArg (Option.map Prod.fst) hanswer
  · exact Outcome.left_globals hanswer

/-- The definition runs to its end, and binds the function. -/
theorem exists_runText_sumDownText :
    ∃ t s code thenCode elseCode id,
      (start .initial).runText 0 sumDownText 3 = .ok (.finished t, s) ∧
        IsSumDown code thenCode elseCode ∧ s.host = .bare ∧
        s.globals 0 = Globals.initial.bind "sum-down" (.closure id 1 false code []) := by
  obtain ⟨code, thenCode, elseCode, hdefinition, hcode⟩ := exists_isSumDown 0
  let loaded := (Datum.ofList sumDownForms .nil).load 0
  let read : Session := { start .initial with nextObject := loaded.2 }
  let bound := Globals.initial.bind "sum-down" (.closure loaded.2 1 false code [])
  let t : State := ⟨.nil, [], [], bound, loaded.2 + 1, 0⟩
  have hrun : (read.state 0 loaded.1 [] []).run (start .initial).host 3 = .finished t :=
    State.run_define hdefinition _ _ _
  refine ⟨t, read.keep 0 t, code, thenCode, elseCode, loaded.2, ?_, hcode, rfl, rfl⟩
  rw [runText_eq readAll_sumDownText]
  exact congrArg (fun outcome => Except.ok (outcome, read.keep 0 outcome.left)) hrun

/-- The definition of `sum-down` runs to its end in a new session. Then a call of it comes to
    the sum of the numbers up to its argument, or to the error that `sumDown` says, for every
    argument, and leaves the globals as they were. -/
theorem runText_sumDown :
    ∃ limit t s, (start .initial).runText 0 sumDownText limit = .ok (.finished t, s) ∧
      ∀ n : Int64, ∃ limit outcome s', s.runText 0 (sumDownCall n) limit = .ok (outcome, s') ∧
        outcome.answer.map Prod.fst = some (sumDown n) ∧ s'.globals 0 = s.globals 0 := by
  obtain ⟨t, s, code, thenCode, elseCode, id, hrun, hcode, hhost, hglobals⟩ :=
    exists_runText_sumDownText
  have hh : s.host.KeepsSound := hhost ▸ Host.keepsSound_bare
  have hclosure : Sound (.closure id 1 false code []) := .closure hcode.balanced nofun
  have hg : (s.globals 0).Sound := hglobals ▸ Globals.Sound.initial.bind "sum-down" hclosure
  have hhave : (s.globals 0).HaveSumDown code := hglobals ▸ haveSumDown_bind id code
  exact ⟨3, t, s, hrun, exists_runText_sumDownCall hh hg hhave hcode⟩

end Session

end ConsMachine
