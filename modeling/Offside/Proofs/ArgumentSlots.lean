import Offside.Proofs.Failures
import Offside.Proofs.FunctionTable
import Offside.Proofs.ScopeTyping
import Offside.Proofs.WellFormed

/-!
# The argument slots of a call

A call of a user function works on copies of its arguments. Only when the body is done do the slots of `var`
parameters take the last values of these parameters, so that a call that fails leaves all slots as they were. The
parameters of a function that is read have different names, and each keeps its type and, as an array, its shape
while the body runs; so does its slot.
-/

namespace Offside

/-! ### The heads of functions that are read -/

namespace Parse

open Grammar

/-- What the head of a function guarantees for its parameters. -/
structure SoundHead (f : Function) : Prop where
  user : ∃ body, f.body = .user body
  distinct : (f.parameters.map Declaration.name).Nodup
  flat : ∀ d ∈ f.parameters, d.type.IsFlat

theorem soundHead_function {defined : List String} {c : Cursor} {r : Reading Function c}
    (h : function defined c = .ok r) : SoundHead r.value := by
  obtain ⟨-, -, hdeclared, -, -, htaken, -⟩ := readsFunction h
  rename_i define name declared lineEnd indent taken body
  obtain ⟨ts, -, hparameters⟩ := parameterList_sound hdeclared
  obtain ⟨rfl, hnodup⟩ := reserve_sound htaken List.nodup_nil
  have hdistinct : (declared.value.map Declaration.name).Nodup := by
    rw [List.append_nil] at hnodup
    exact (List.reverse_perm _).nodup_iff.mp hnodup
  have hflat : ∀ d ∈ declared.value, d.type.IsFlat := fun d hd =>
    (Declaration.isParameter_of_isParameterList hparameters d.unplaced (List.mem_map_of_mem hd)).flat
  exact ⟨⟨_, rfl⟩, hdistinct, hflat⟩

theorem functions_heads {defined : List String} {program p : Program} {c : Cursor}
    (h : functions defined program c = .ok p) (hheads : ∀ f ∈ program.functions, SoundHead f)
    (hnames : DistinctNames (program.functions.map Function.name)) :
    (∀ f ∈ p.functions, SoundHead f) ∧ DistinctNames (p.functions.map Function.name) := by
  refine ⟨fun f hf => ?_, distinctNames_functions h hnames⟩
  rcases mem_functions h hf with hmem | ⟨d, r, hread, rfl⟩
  · exact hheads f hmem
  · exact soundHead_function hread

end Parse

/-! ### Binding and collecting -/

/-- Parameters are bound to their arguments, and other names to what they were bound to. -/
theorem Function.find?_bindParameters {s t : Scope} {ds : List Declaration} {values : List Value}
    (h : bindParameters s ds values = .ok t) (hnames : (ds.map Declaration.name).Nodup) :
    (∀ name, name ∉ ds.map Declaration.name → t.find? name = s.find? name) ∧
      ∀ (i : Nat) (d : Declaration) (v : Value), ds[i]? = some d → values[i]? = some v →
        t.find? d.name = some ⟨v, d.type, d.range, false⟩ ∧ v.type = d.type := by
  induction ds generalizing s values with
  | nil =>
    cases h
    exact ⟨fun _ _ => rfl, fun i d v hd => by simp at hd⟩
  | cons first ds ih =>
    cases values with
    | nil =>
      cases h
      exact ⟨fun _ _ => rfl, fun i d v _ hv => by simp at hv⟩
    | cons value values =>
      rw [bindParameters] at h
      split at h
      · rename_i next hdeclare
        obtain ⟨hcheck, rfl⟩ := check_of_declare hdeclare
        obtain ⟨hfirst, hrest⟩ := List.nodup_cons.mp hnames
        obtain ⟨hothers, hbound⟩ := ih h hrest
        constructor
        · intro name hname
          rw [List.map_cons, List.mem_cons, not_or] at hname
          rw [hothers name hname.2, Scope.find?_insert, if_neg hname.1]
        · intro i d v hd hv
          cases i with
          | zero =>
            cases hd
            cases hv
            exact ⟨by rw [hothers _ hfirst, Scope.find?_insert, if_pos rfl], (Value.check_eq_ok.mp hcheck).1⟩
          | succ i => exact hbound i d v hd hv
      · cases h

/-- Where parameters have different names, the slot of a `var` parameter takes the value of that parameter, and every
other slot is left alone. -/
theorem Scope.getElem?_collect {ds : List Declaration} (hnames : (ds.map Declaration.name).Nodup) (s : Scope)
    {slots : List Value} {i : Nat} {d : Declaration} {old : Value} (hd : ds[i]? = some d)
    (hold : slots[i]? = some old) :
    (s.collect ds slots)[i]? = some (if d.mutable then (s.get? d.name).getD old else old) := by
  induction ds generalizing s slots i with
  | nil => cases hd
  | cons first ds ih =>
    cases slots with
    | nil => cases hold
    | cons slot slots =>
      obtain ⟨hfirst, hrest⟩ := List.nodup_cons.mp hnames
      rw [collect]
      cases i with
      | zero =>
        cases hd
        cases hold
        split <;> rfl
      | succ i =>
        have hd : ds[i]? = some d := hd
        have hold : slots[i]? = some old := hold
        have hother : d.name ≠ first.name := by
          intro hsame
          exact hfirst (hsame ▸ List.mem_map_of_mem (List.mem_of_getElem? hd))
        split
        · have herased := ih hrest (s.erase first.name) hd hold
          rw [get?, find?_erase, if_neg hother] at herased
          exact herased
        · exact ih hrest s hd hold

theorem Scope.length_collect (s : Scope) (ds : List Declaration) (slots : List Value) :
    (s.collect ds slots).length = slots.length := by
  induction ds generalizing s slots with
  | nil => rfl
  | cons d ds ih =>
    cases slots with
    | nil => rfl
    | cons slot slots =>
      rw [collect]
      split
      · exact congrArg (· + 1) (ih (s.erase d.name) slots)
      · exact congrArg (· + 1) (ih s slots)

/-! ### Calls -/

/-- What a call that is done does to the slot of a parameter. -/
structure Declaration.Returns (d : Declaration) (old new : Value) : Prop where
  /-- The argument had the declared type. -/
  took : old.type = d.type
  type : new.type = d.type
  given : d.mutable = false → new = old
  cells : ∀ c, old = .array c → ∃ e, new = .array e ∧ e.element = c.element ∧ e.lower = c.lower ∧ e.size = c.size

namespace Function

variable {program : Program} {limit fuel : Nat} {f : Function} {body : List Stmt} {outcome : Outcome}

/-- The two ends of a call of a user function: it is not done and the slots are what they were, or its body is done and
the slots are collected from the scope that it leaves. -/
theorem run_user_cases {call after : Call} (hbody : f.body = .user body)
    (h : f.run program limit fuel call = (outcome, after)) :
    (outcome ≠ .done ∧ after.slots = call.slots) ∨
      outcome = .done ∧ f.takes call.slots.length = true ∧ ∃ less scope reached, f.scopeFor call.slots = .ok scope ∧
        Stmt.executeAll program limit body less (call.machine.entered scope) = (.done, reached) ∧
        after.slots = reached.scope.collect f.parameters call.slots := by
  cases fuel with
  | zero =>
    cases h
    exact .inl ⟨by simp, rfl⟩
  | succ less =>
    cases htakes : f.takes call.slots.length with
    | false =>
      rw [run_miscounted htakes] at h
      cases h
      exact .inl ⟨by simp, rfl⟩
    | true =>
      obtain ⟨slots, host, depth⟩ := call
      rw [run_user htakes hbody, Call.nested] at h
      split at h
      · cases h
        exact .inl ⟨by simp, rfl⟩
      · rw [Call.enter] at h
        cases hscope : f.scopeFor slots with
        | error fault =>
          simp only [hscope] at h
          cases h
          exact .inl ⟨by simp, rfl⟩
        | ok scope =>
          simp only [hscope] at h
          rcases hran : Stmt.executeAll program limit body less ⟨scope, host, depth + 1⟩ with ⟨ended, reached⟩
          rw [hran] at h
          cases ended with
          | done =>
            cases h
            exact .inr ⟨rfl, rfl, less, scope, reached, rfl, hran, rfl⟩
          | failed | exhausted =>
            cases h
            exact .inl ⟨by simp, rfl⟩

/-- What a call knows of an argument once its scope is built. -/
theorem bound_of_scopeFor (hhead : Parse.SoundHead f) {slots : List Value} {scope : Scope}
    (hscope : f.scopeFor slots = .ok scope) {i : Nat} {d : Declaration} {v : Value}
    (hd : f.parameters[i]? = some d) (hv : slots[i]? = some v) :
    scope.find? d.name = some ⟨v, d.type, d.range, false⟩ ∧ v.type = d.type := by
  unfold scopeFor at hscope
  split at hscope
  · exact (find?_bindParameters hscope hhead.distinct).2 i d v hd hv
  · cases hscope

theorem length_of_takes (hbody : f.body = .user body) {count : Nat} (h : f.takes count = true) :
    count = f.parameters.length := by
  simpa [takes, arity, hbody, eq_comm] using h

/-- Arguments that their parameters take are homogeneous as soon as their elements have the types that they say: no
parameter takes an array of arrays. -/
theorem homogeneous_of_scopeFor (hhead : Parse.SoundHead f) {slots : List Value}
    (hlength : slots.length = f.parameters.length) {scope : Scope} (hscope : f.scopeFor slots = .ok scope)
    (hslots : ∀ cells, .array cells ∈ slots → ∀ item ∈ cells.items, item.type = cells.element) :
    ∀ v ∈ slots, v.Homogeneous := by
  intro v hv
  obtain ⟨i, hi, hvi⟩ := List.getElem_of_mem hv
  have hd : f.parameters[i]? = some (f.parameters.get ⟨i, hlength ▸ hi⟩) := by simp
  have htype := (bound_of_scopeFor hhead hscope hd (List.getElem?_eq_some_iff.mpr ⟨hi, hvi⟩)).2
  cases v with
  | array cells =>
    have hflat := hhead.flat _ (List.mem_of_getElem? hd) cells.element htype.symm
    refine Value.homogeneous_array.mpr fun item hitem => ?_
    have hitem := hslots cells hv item hitem
    exact ⟨hitem, Value.homogeneous_of_not_array (by rw [hitem, hflat])⟩
  | _ => trivial

/-- The body may do with its parameters what it likes: a slot that is collected from a scope that evolved has the
declared type, and the shape of the argument. -/
theorem returns_collect (hhead : Parse.SoundHead f) {slots : List Value} {scope reached : Scope}
    (hscope : f.scopeFor slots = .ok scope) (htyped : reached.Typed) (hkeeps : scope.Keeps reached) {i : Nat}
    {d : Declaration} {old new : Value} (hd : f.parameters[i]? = some d) (hold : slots[i]? = some old)
    (hnew : (reached.collect f.parameters slots)[i]? = some new) : d.Returns old new := by
  obtain ⟨hfind, htook⟩ := bound_of_scopeFor hhead hscope hd hold
  obtain ⟨b, hb, hkept⟩ := (hkeeps d.name).2 _ hfind
  have hvalue : b.value.type = d.type := by
    rw [(Value.check_eq_ok.mp (htyped d.name b hb).suits).1, hkept.type]
  rw [Scope.getElem?_collect hhead.distinct reached hd hold, Scope.get?, hb] at hnew
  cases hmutable : d.mutable with
  | false =>
    rw [hmutable] at hnew
    cases hnew
    exact ⟨htook, htook, fun _ => rfl, fun c hc => ⟨c, hc, rfl, rfl, rfl⟩⟩
  | true =>
    rw [hmutable] at hnew
    cases hnew
    exact ⟨htook, hvalue, fun hgiven => by simp [hmutable] at hgiven, hkept.cells⟩

end Function

/-- Calls on argument slots are transactional: one that is not done leaves the slots as they were, and one that is done
changes only the slots of `var` parameters, and of these neither the type nor the shape. -/
theorem Session.call_transactional {ls : List Lexeme} {s : Session} (hread : Program.ofLexemes ls = .ok s.program)
    {f : Function} (hf : f ∈ s.program.functions) (fuel : Nat) (slots : List Value)
    (hslots : ∀ cells, .array cells ∈ slots → ∀ item ∈ cells.items, item.type = cells.element)
    {outcome : Outcome} {after : List Value} {s' : Session}
    (hcall : s.call fuel f.name slots = (outcome, after, s')) :
    (outcome ≠ .done → after = slots) ∧
      (outcome = .done → slots.length = f.parameters.length ∧ after.length = slots.length ∧
        ∀ (i : Nat) (d : Declaration) (old new : Value), f.parameters[i]? = some d → slots[i]? = some old →
          after[i]? = some new → d.Returns old new) := by
  obtain ⟨program, settings, machine⟩ := s
  obtain ⟨hheads, hnames⟩ := Parse.functions_heads hread (List.forall_mem_nil _) ⟨List.nodup_nil, List.forall_mem_nil _⟩
  have hhead := hheads f hf
  obtain ⟨body, hbody⟩ := hhead.user
  rw [call, callNamed, Program.function?_of_mem hnames.1 hf] at hcall
  rcases hrun : f.run program settings.maxDepth fuel ⟨slots, machine⟩ with ⟨ended, returned⟩
  simp only [hrun] at hcall
  cases hcall
  rcases Function.run_user_cases hbody hrun with
    ⟨hnot, hsame⟩ | ⟨hdone, htakes, less, scope, reached, hscope, hran, hcollected⟩
  · exact ⟨fun _ => hsame, fun hdone => absurd hdone hnot⟩
  · refine ⟨fun hnot => absurd hdone hnot, fun _ => ?_⟩
    have hlength := Function.length_of_takes hbody htakes
    have hhomogeneous := Function.homogeneous_of_scopeFor hhead hlength hscope hslots
    have hfollowed := Frame.followed_evolves program (Function.run_evolves program settings.maxDepth less)
    have hevolves := hfollowed.runAll less body (machine.entered scope) (Function.typed_scopeFor hhomogeneous hscope)
    have hran : Stmt.runAll program (Function.run program settings.maxDepth less) less body (machine.entered scope) =
        (.done, reached) := hran
    rw [hran] at hevolves
    refine ⟨hlength, by rw [hcollected, Scope.length_collect], fun i d old new hd hold hnew => ?_⟩
    rw [hcollected] at hnew
    exact Function.returns_collect hhead hscope hevolves.1 hevolves.2 hd hold hnew

/-- The count goes up before the element is stored. -/
def enterSource : String :=
  Stmt.joinRows [
    "define enter(place: integer; var row: array of integer; var count: integer)",
    "    count := count + 1",
    "    row[place] := count"]

namespace Example

/-- A row with indices from 4 to 5, and a count of 7. -/
def slotsFor (place : Int32) : List Value :=
  [.integer place, .array ⟨.integer, 4, #[.integer 0, .integer 0]⟩, .integer 7]

def enters (p : Program) (place : Int32) : Outcome × List Value × Session :=
  (Session.start p ⟨none, none, 3⟩ (.start (.ofText "") (.ofSeed 0))).call 9 "enter" (slotsFor place)

/-- The texts of the slots, if the call is done. -/
def entered? (p : Program) (place : Int32) : Option (List String) :=
  match enters p place with
  | (.done, slots, _) => some (slots.map Value.text)
  | _ => none

theorem items_slotsFor (place : Int32) (cells : Cells Value) (h : .array cells ∈ slotsFor place) :
    ∀ item ∈ cells.items, item.type = cells.element := by
  simp only [slotsFor, List.mem_cons, List.not_mem_nil, or_false, reduceCtorEq, false_or, Value.array.injEq] at h
  subst h
  simp [Value.type]

end Example

/-- There is an element at 5, and none at 6. -/
theorem Session.call_transactional_enter : ∃ ls p f, lexemes enterSource = .ok ls ∧ Program.ofLexemes ls = .ok p ∧
    f ∈ p.functions ∧ f.name = "enter" ∧
    (∃ after s', Example.enters p 5 = (.done, after, s') ∧ after.map Value.text = ["5", "[0, 8]", "8"] ∧
      f.parameters.length = 3 ∧ ∀ (i : Nat) (d : Declaration) (old new : Value), f.parameters[i]? = some d →
        (Example.slotsFor 5)[i]? = some old → after[i]? = some new → d.Returns old new) ∧
    ∃ outcome s', outcome ≠ .done ∧ Example.enters p 6 = (outcome, Example.slotsFor 6, s') := by
  obtain ⟨ls, p, hls, hp, hview⟩ : ∃ ls p, lexemes enterSource = .ok ls ∧ Program.ofLexemes ls = .ok p ∧
      (p.functions.map Function.name, Example.entered? p 5, Example.entered? p 6) =
        (["enter"], some ["5", "[0, 8]", "8"], none) :=
    exists_program (by decide +kernel)
  obtain ⟨hnames, hdone, hfailed⟩ : p.functions.map Function.name = ["enter"] ∧
      Example.entered? p 5 = some ["5", "[0, 8]", "8"] ∧ Example.entered? p 6 = none := by
    simpa using hview
  obtain ⟨f, hf, hname⟩ : ∃ f ∈ p.functions, f.name = "enter" := by
    rw [← List.mem_map, hnames]
    exact List.mem_singleton.mpr rfl
  have hcall : ∀ place outcome after s', Example.enters p place = (outcome, after, s') →
      (Session.start p ⟨none, none, 3⟩ (.start (.ofText "") (.ofSeed 0))).call 9 f.name (Example.slotsFor place) =
        (outcome, after, s') := by
    intro place outcome after s' h
    rw [← h, hname, Example.enters]
  refine ⟨ls, p, f, hls, hp, hf, hname, ?_, ?_⟩
  · unfold Example.entered? at hdone
    split at hdone
    · rename_i after s' hrun
      obtain ⟨-, hends⟩ := Session.call_transactional hp hf 9 (Example.slotsFor 5) (Example.items_slotsFor 5)
        (hcall 5 _ _ _ hrun)
      obtain ⟨hlength, -, hreturns⟩ := hends rfl
      exact ⟨after, s', hrun, Option.some.inj hdone, hlength.symm, hreturns⟩
    · cases hdone
  · rcases hrun : Example.enters p 6 with ⟨outcome, after, s'⟩
    have hnot : outcome ≠ .done := by
      rintro rfl
      rw [Example.entered?, hrun] at hfailed
      cases hfailed
    obtain ⟨hleaves, -⟩ := Session.call_transactional hp hf 9 (Example.slotsFor 6) (Example.items_slotsFor 6)
      (hcall 6 _ _ _ hrun)
    exact ⟨outcome, s', hnot, by rw [hleaves hnot]⟩

end Offside
