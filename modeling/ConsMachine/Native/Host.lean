import ConsMachine.Native.Builtin

/-!
# Hosts

A host provides natives to its engines, besides the built-in ones. Registering
one makes a new native, even if the same function was registered before, and
never takes the place of another.
-/

namespace ConsMachine

/-- The natives registered so far, in the order of their registration. -/
structure Host where
  natives : Array Native

namespace Host

/-- A host without natives of its own. -/
def bare : Host := ⟨#[]⟩

/-- Register a native under a name: the reference to it, and the new host. -/
def register (h : Host) (name : String) (f : Native) : NativeRef × Host :=
  (.hosted h.natives.size name, ⟨h.natives.push f⟩)

/-- What the native does that a reference stands for. A reference that no
    registration gave out is a misuse. -/
def behaviour (h : Host) : NativeRef → Native
  | .builtin op => op.run
  | .hosted index name =>
    match h.natives[index]? with
    | some f => f
    | none => fun _ => throw (.misuse (.ofNative ("native not registered: " ++ name)))

/-- What holds of the built-in natives, of those of a host, and of failing, holds of
    whatever a reference stands for. -/
theorem forall_behaviour {P : Native → Prop} {h : Host} (hbuiltin : ∀ op : Builtin, P op.run)
    (hhosted : ∀ f ∈ h.natives, P f) (hfail : ∀ e : Error, P fun _ => throw e) (f : NativeRef) :
    P (h.behaviour f) := by
  cases f with
  | builtin op => exact hbuiltin op
  | hosted index name =>
    cases hf : h.natives[index]? with
    | some f =>
      simp only [behaviour, hf]
      exact hhosted f (Array.mem_of_getElem? hf)
    | none =>
      simp only [behaviour, hf]
      exact hfail _

/-- A registered native does what it was registered with. -/
theorem behaviour_register (h : Host) (name : String) (f : Native) :
    (h.register name f).2.behaviour (h.register name f).1 = f := by
  simp [register, behaviour]

/-- Registering a native leaves the others as they are. -/
theorem behaviour_register_of_lt {h : Host} {index : Nat} (hi : index < h.natives.size)
    (name other : String) (f : Native) :
    (h.register name f).2.behaviour (.hosted index other) =
      h.behaviour (.hosted index other) := by
  simp [register, behaviour, Array.getElem?_push_lt hi, hi]

end Host

end ConsMachine
