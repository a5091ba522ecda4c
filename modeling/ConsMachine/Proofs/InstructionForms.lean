import ConsMachine.Instruction
import ConsMachine.Proofs.Data

/-!
# The forms of instructions

A form is an instruction exactly if it is a proper list of one of eight shapes
(`Instruction.Spelt`), and whatever else is decoded is malformed. Encoding an
instruction that was decoded builds the list that it was decoded from, on the same
operands; only the rest flag of a function comes back as a boolean
(`Value.settleFlag`). So decoding undoes encoding, for one instruction and for the
instructions of a program (`Instruction.decode_inverts_encode`).
-/

namespace ConsMachine

/-! ### Proper lists -/

namespace Value

variable {v w : Value} {vs : List Value}

theorem list?_eq_some_nil_iff : v.list? = some [] ↔ v = nil := by
  constructor
  · intro h
    cases v with
    | nil => rfl
    | pair id a d =>
      rw [list?, Option.ite_none_right_eq_some, items_pair] at h
      exact absurd (Option.some.inj h.2) (List.cons_ne_nil a d.items)
    | _ => simp [list?, tail, isNil] at h
  · rintro rfl
    rfl

theorem list?_eq_some_cons_iff :
    v.list? = some (w :: vs) ↔ ∃ id d, v = pair id w d ∧ d.list? = some vs := by
  constructor
  · intro h
    rw [list?, Option.ite_none_right_eq_some] at h
    obtain ⟨htail, hitems⟩ := h
    cases v with
    | pair id a d =>
      rw [items_pair, Option.some.injEq, List.cons.injEq] at hitems
      obtain ⟨rfl, rfl⟩ := hitems
      exact ⟨id, d, rfl, if_pos htail⟩
    | _ => cases hitems
  · rintro ⟨id, d, rfl, h⟩
    rw [list?, Option.ite_none_right_eq_some] at h ⊢
    rw [items_pair, Option.some.inj h.2]
    exact ⟨h.1, rfl⟩

/-- Proper lists of the same items are equal by contents. -/
theorem Equal.of_list? (hv : v.list? = some vs) (hw : w.list? = some vs) : v.Equal w := by
  induction vs generalizing v w with
  | nil =>
    rw [list?_eq_some_nil_iff.1 hv, list?_eq_some_nil_iff.1 hw]
    exact .refl nil
  | cons a vs ih =>
    obtain ⟨_, d, rfl, hd⟩ := list?_eq_some_cons_iff.1 hv
    obtain ⟨_, e, rfl, he⟩ := list?_eq_some_cons_iff.1 hw
    exact ⟨.refl a, ih hd he⟩

/-- The form of a function with a boolean for its rest flag, false only if the flag is. -/
def settleFlag : Value → Value
  | pair i (symbol "closure") (pair j arity (pair k rest code)) =>
    pair i (symbol "closure") (pair j arity (pair k (bool rest.isTrue) code))
  | v => v

/-- A flag keeps its truth when it becomes a boolean. -/
theorem isTrue_bool (b : Bool) : (bool b).isTrue = b := by
  cases b <;> rfl

end Value

namespace Instruction

/-! ### The eight shapes -/

/-- The items of the form of an instruction. -/
inductive Spelt : List Value → Instruction → Prop
  | push {v : Value} : Spelt [.symbol "push", v] (.push v)
  | pop : Spelt [.symbol "pop"] .pop
  | access {n : Int64} : 0 ≤ n → Spelt [.symbol "access", .number n] (.access n.toInt.toNat)
  | closure {n : Int64} {rest code : Value} : 0 ≤ n →
      Spelt [.symbol "closure", .number n, rest, code] (.closure n.toInt.toNat rest.isTrue code)
  | call {n : Int64} : 0 ≤ n → Spelt [.symbol "call", .number n] (.call n.toInt.toNat)
  | branch {thenCode elseCode : Value} :
      Spelt [.symbol "if", thenCode, elseCode] (.branch thenCode elseCode)
  | getGlobal {name : String} :
      Spelt [.symbol "get-global", .symbol name] (.getGlobal name)
  | setGlobal {name : String} :
      Spelt [.symbol "set-global", .symbol name] (.setGlobal name)

variable {v : Value} {items : List Value} {i : Instruction}

theorem count?_eq_some_iff {k : Nat} :
    count? v = some k ↔ ∃ n : Int64, v = .number n ∧ 0 ≤ n ∧ n.toInt.toNat = k := by
  constructor
  · intro h
    cases v with
    | number n =>
      rw [count?, Option.ite_none_right_eq_some] at h
      exact ⟨n, rfl, h.1, Option.some.inj h.2⟩
    | _ => cases h
  · rintro ⟨n, rfl, hn, rfl⟩
    exact if_pos hn

/-- A count is encoded as the number that it was decoded from. -/
theorem ofNat_toNat_toInt {n : Int64} (hn : 0 ≤ n) : Int64.ofNat n.toInt.toNat = n := by
  rw [← Int64.ofInt_eq_ofNat, Int.toNat_of_nonneg (by simpa using Int64.le_iff_toInt_le.1 hn),
    Int64.ofInt_toInt]

/-- With a known operation, the operands of an instruction are those of its shape. -/
theorem ofOperands_eq_ok_iff {op : Opcode} {operands : List Value} :
    ofOperands op operands = .ok i ↔ Spelt (.symbol op.name :: operands) i := by
  constructor
  · intro h
    unfold ofOperands at h
    split at h
    case h_1 => cases h; exact .push
    case h_2 => cases h; exact .pop
    case h_6 => cases h; exact .branch
    case h_7 => cases h; exact .getGlobal
    case h_9 => cases h; exact .setGlobal
    case h_3 | h_5 =>
      split at h
      · rename_i hcount
        obtain ⟨n, rfl, hn, rfl⟩ := count?_eq_some_iff.1 hcount
        cases h
        constructor
        exact hn
      · cases h
    case h_4 =>
      split at h
      · rename_i hcount
        obtain ⟨n, rfl, hn, rfl⟩ := count?_eq_some_iff.1 hcount
        cases h
        exact .closure hn
      · cases h
    all_goals cases h
  · intro h
    generalize hitems : Value.symbol op.name :: operands = items at h
    -- The head of each shape names one operation.
    have head (op' : Opcode) {rest : List Value} (h : Value.symbol op.name :: operands =
        .symbol op'.name :: rest) : op = op' ∧ operands = rest := by
      rw [List.cons.injEq, Value.symbol.injEq] at h
      refine ⟨?_, h.2⟩
      rw [← Option.some.injEq, ← Opcode.ofName?_name op, h.1, Opcode.ofName?_name]
    have count {n : Int64} (hn : 0 ≤ n) : count? (.number n) = some n.toInt.toNat := if_pos hn
    rcases h with _ | _ | hn | hn | hn | _ | _ | _
    · obtain ⟨rfl, rfl⟩ := head .push hitems
      rfl
    · obtain ⟨rfl, rfl⟩ := head .pop hitems
      rfl
    · obtain ⟨rfl, rfl⟩ := head .access hitems
      simp only [ofOperands, count hn]
    · obtain ⟨rfl, rfl⟩ := head .closure hitems
      simp only [ofOperands, count hn]
    · obtain ⟨rfl, rfl⟩ := head .call hitems
      simp only [ofOperands, count hn]
    · obtain ⟨rfl, rfl⟩ := head .branch hitems
      rfl
    · obtain ⟨rfl, rfl⟩ := head .getGlobal hitems
      rfl
    · obtain ⟨rfl, rfl⟩ := head .setGlobal hitems
      rfl

/-- The head of an instruction is the symbol of an operation. -/
theorem Spelt.exists_head (h : Spelt items i) :
    ∃ op : Opcode, ∃ operands, items = .symbol op.name :: operands := by
  rcases h with _ | _ | _ | _ | _ | _ | _ | _
  · exact ⟨.push, _, rfl⟩
  · exact ⟨.pop, _, rfl⟩
  · exact ⟨.access, _, rfl⟩
  · exact ⟨.closure, _, rfl⟩
  · exact ⟨.call, _, rfl⟩
  · exact ⟨.branch, _, rfl⟩
  · exact ⟨.getGlobal, _, rfl⟩
  · exact ⟨.setGlobal, _, rfl⟩

theorem ofForm_eq_ok_iff : ofForm v = .ok i ↔ ∃ items, v.list? = some items ∧ Spelt items i := by
  constructor
  · intro h
    unfold ofForm at h
    split at h
    · split at h
      · cases h
      · rename_i hrest
        split at h
        · rename_i hop
          obtain rfl := Opcode.ofName?_eq_some_iff.1 hop
          exact ⟨_, Value.list?_eq_some_cons_iff.2 ⟨_, _, rfl, hrest⟩, ofOperands_eq_ok_iff.1 h⟩
        · cases h
    · cases h
    · cases h
  · rintro ⟨items, hitems, h⟩
    obtain ⟨op, operands, rfl⟩ := h.exists_head
    obtain ⟨id, rest, rfl, hrest⟩ := Value.list?_eq_some_cons_iff.1 hitems
    simp only [ofForm, hrest, Opcode.ofName?_name]
    exact ofOperands_eq_ok_iff.2 h

theorem decode_eq_ok_iff : decode v = .ok i ↔ ∃ items, v.list? = some items ∧ Spelt items i := by
  rw [← ofForm_eq_ok_iff, decode]
  split
  · rename_i h
    rw [h, Except.ok.injEq, Except.ok.injEq]
  · rename_i h
    rw [h]
    exact iff_of_false (by rintro ⟨⟩) (by rintro ⟨⟩)

theorem decode_eq_error {e : Error} (h : decode v = .error e) :
    ∃ fault, e = .malformed fault v := by
  unfold decode at h
  split at h
  · cases h
  · cases h
    exact ⟨_, rfl⟩

/-! ### There and back -/

/-- Only the form of a function has a flag to settle. -/
theorem settleFlag_of_head {name : String} {operands : List Value} (hname : name ≠ "closure")
    (hv : v.list? = some (.symbol name :: operands)) : v.settleFlag = v := by
  obtain ⟨id, rest, rfl, _⟩ := Value.list?_eq_some_cons_iff.1 hv
  unfold Value.settleFlag
  split
  · rename_i heq
    cases heq
    exact absurd rfl hname
  · rfl

/-- The items that an instruction is encoded as are those of its form, but for the rest
    flag of a function. -/
theorem Spelt.list?_settleFlag (h : Spelt items i) (hv : v.list? = some items) :
    v.settleFlag.list? = some (.symbol i.opcode.name :: i.operands) := by
  rcases h with _ | _ | hn | hn | hn | _ | _ | _
  case closure =>
    obtain ⟨_, _, rfl, hrest⟩ := Value.list?_eq_some_cons_iff.1 hv
    obtain ⟨_, _, rfl, hflag⟩ := Value.list?_eq_some_cons_iff.1 hrest
    obtain ⟨_, _, rfl, hcode⟩ := Value.list?_eq_some_cons_iff.1 hflag
    rw [operands, ofNat_toNat_toInt hn]
    refine Value.list?_eq_some_cons_iff.2 ⟨_, _, rfl, ?_⟩
    refine Value.list?_eq_some_cons_iff.2 ⟨_, _, rfl, ?_⟩
    exact Value.list?_eq_some_cons_iff.2 ⟨_, _, rfl, hcode⟩
  case access | call =>
    rw [settleFlag_of_head (by decide) hv, operands, ofNat_toNat_toInt hn]
    exact hv
  all_goals
    rw [settleFlag_of_head (by decide) hv]
    exact hv

/-- What is encoded is a shape of the same instruction. -/
theorem Spelt.encoded (h : Spelt items i) : Spelt (.symbol i.opcode.name :: i.operands) i := by
  rcases h with _ | _ | hn | hn | hn | _ | _ | _
  · exact .push
  · exact .pop
  · rw [operands, ofNat_toNat_toInt hn]
    exact .access hn
  · rename_i n rest code
    have hclosure : Spelt [.symbol "closure", .number n, .bool rest.isTrue, code]
        (.closure n.toInt.toNat (Value.bool rest.isTrue).isTrue code) := .closure hn
    rw [Value.isTrue_bool] at hclosure
    rw [operands, ofNat_toNat_toInt hn]
    exact hclosure
  · rw [operands, ofNat_toNat_toInt hn]
    exact .call hn
  · exact .branch
  · exact .getGlobal
  · exact .setGlobal

theorem list?_encode (i : Instruction) (next : Nat) :
    (i.encode next).1.list? = some (.symbol i.opcode.name :: i.operands) :=
  Value.list?_ofList _ next

/-- An instruction that was decoded is decoded again from its encoding. -/
theorem decode_encode (h : decode v = .ok i) (next : Nat) : decode (i.encode next).1 = .ok i := by
  obtain ⟨items, _, hitems⟩ := decode_eq_ok_iff.1 h
  exact decode_eq_ok_iff.2 ⟨_, i.list?_encode next, hitems.encoded⟩

/-- Its encoding is equal by contents to the form it was decoded from. -/
theorem encode_equal (h : decode v = .ok i) (next : Nat) :
    (i.encode next).1.Equal v.settleFlag := by
  obtain ⟨items, hv, hitems⟩ := decode_eq_ok_iff.1 h
  exact .of_list? (i.list?_encode next) (hitems.list?_settleFlag hv)

/-- By induction on the instructions: their forms are decoded to them, in this order. -/
theorem mapM_decode_encodeForms {is : List Instruction} (h : ∀ i ∈ is, ∃ v, decode v = .ok i)
    (next : Nat) : (encodeForms is next).1.mapM decode = .ok is := by
  induction is generalizing next with
  | nil => rfl
  | cons i is ih =>
    rw [List.forall_mem_cons] at h
    obtain ⟨⟨v, hv⟩, his⟩ := h
    rw [encodeForms, List.mapM_cons, decode_encode hv next, ih his]
    rfl

/-- Decoding accepts the eight shapes and nothing else, and encoding is the way back.
    A value is decoded exactly if it is a proper list of one of the shapes, and then to
    the instruction of that shape; any other value is malformed. What was decoded is
    decoded again from its encoding, with the same objects for operands, and the encoding
    is equal by contents to the value, with a boolean for the rest flag of a function. So
    the elements of a program are decoded to the instructions that it was built of. -/
theorem decode_inverts_encode :
    (∀ v i, decode v = .ok i ↔ ∃ items, v.list? = some items ∧ Spelt items i) ∧
    (∀ v e, decode v = .error e → ∃ fault, e = .malformed fault v) ∧
    (∀ v i next, decode v = .ok i →
      decode (i.encode next).1 = .ok i ∧
        (i.encode next).1.Equal v.settleFlag ∧ (i.encode next).1.equal v.settleFlag = true) ∧
    ∀ is next, (∀ i ∈ is, ∃ v, decode v = .ok i) →
      ∃ forms, (encodeAll is next).1.list? = some forms ∧ forms.mapM decode = .ok is := by
  refine ⟨fun v i => decode_eq_ok_iff, fun v e => decode_eq_error, fun v i next h => ?_,
    fun is next h => ?_⟩
  · have hequal := encode_equal h next
    exact ⟨decode_encode h next, hequal, hequal.equal⟩
  · exact ⟨_, Value.list?_ofList _ _, mapM_decode_encodeForms h next⟩

/-- A function whose rest flag is a number comes back with a boolean in its place. -/
theorem decode_inverts_encode_flag :
    let form := (Value.ofList [.symbol "closure", .number 1, .number 7, .nil] .nil 0).1
    let settled := (Value.ofList [.symbol "closure", .number 1, .bool true, .nil] .nil 0).1
    decode form = .ok (.closure 1 true .nil) ∧
      decode ((closure 1 true .nil).encode 4).1 = .ok (.closure 1 true .nil) ∧
      ((closure 1 true .nil).encode 4).1.equal settled = true := by
  intro form settled
  have hform : decode form = .ok (.closure 1 true .nil) := rfl
  obtain ⟨hagain, _, hequal⟩ := decode_inverts_encode.2.2.1 form _ 4 hform
  exact ⟨hform, hagain, hequal⟩

end Instruction

end ConsMachine
