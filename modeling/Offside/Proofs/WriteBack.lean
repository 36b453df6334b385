import Offside.Proofs.ArgumentSlots
import Offside.Proofs.Places

/-!
# Where a call stores its outputs

The outputs of a call are stored when it is done, from left to right. The index of an element is evaluated only then, in
the scope that the outputs before it leave. Where it still has the value that it had when the call began, the output
goes to the element that was passed; so it does if no output before it changes a variable that the index reads.
-/

namespace Offside

/-! ### The places of arguments -/

/-- The variables that the index of an argument reads. -/
def Argument.indexNames (a : Argument) : List String :=
  match a.value with
  | .element _ index => index.names
  | _ => []

/-- The place that an argument names in a scope, if it names one. -/
def Argument.place? (s : Scope) (a : Argument) : Option Place :=
  a.value.target?.bind fun target => (target.place s).toOption

/-- The argument at a position is an output, and the place that it names in a scope includes an element. -/
def Function.Designates (f : Function) (s : Scope) (arguments : List Argument) (i : Nat) (name : String)
    (index : Int32) : Prop :=
  ∃ argument place, arguments[i]? = some argument ∧ f.isOutput i = true ∧ argument.place? s = some place ∧
    place.Includes name index

/-- The places of the outputs of a call, as a scope tells them, with the values for them. The count is of the arguments
already behind. -/
def Function.outputs (f : Function) (s : Scope) : Nat → List Argument → List Value → List (Place × Value)
  | position, argument :: arguments, slot :: slots =>
    (if f.isOutput position then (argument.place? s).toList else []).map (·, slot) ++
      f.outputs s (position + 1) arguments slots
  | _, _, _ => []

/-- The index of each output has the value that a scope gives it also in the scope that the outputs before it leave. The
count is of the arguments already behind, and `now` is what these leave. -/
def Function.Undisturbed (f : Function) (s now : Scope) (position : Nat) (arguments : List Argument)
    (slots : List Value) : Prop :=
  ∀ (i : Nat) (argument : Argument) (array : String) (index : Expr), arguments[i]? = some argument →
    f.isOutput (position + i) = true → argument.value = .element array index →
    index.evalInteger (now.storeOutputs f position (arguments.take i) (slots.take i)).2 .index =
      index.evalInteger s .index

/-- No output changes a variable that the index of a later output reads. -/
def Function.SparesIndices (f : Function) (position : Nat) (arguments : List Argument) (values slots : List Value) :
    Prop :=
  ∀ (i j : Nat) (earlier later : Argument) (target : Target), i < j → arguments[i]? = some earlier →
    arguments[j]? = some later → f.isOutput (position + i) = true → f.isOutput (position + j) = true →
    earlier.value.target? = some target → target.name ∈ later.indexNames → slots[i]? = values[i]?

/-- Values are stored at places, one after the other. -/
inductive Scope.Takes : Scope → List (Place × Value) → Scope → Prop where
  | nil {s : Scope} : Scope.Takes s [] s
  | cons {s t u : Scope} {place : Place} {v : Value} {rest : List (Place × Value)} (h : s.put place v = (.ok (), t))
      (hrest : Scope.Takes t rest u) : Scope.Takes s ((place, v) :: rest) u

section

variable {s t now : Scope} {target : Target} {argument : Argument} {v : Value}

theorem Scope.get?_of_load {name : String} (h : s.load name = .ok v) : s.get? name = some v := by
  rw [load] at h
  cases hget : s.get? name with
  | none => simp [hget] at h
  | some value =>
    rw [hget] at h
    exact congrArg some (Except.ok.inj h)

/-- An expression that names a place has the value at this place. -/
theorem Expr.at?_of_eval {e : Expr} (h : e.eval s = .ok v) (htarget : e.target? = some target) :
    ∃ place, target.place s = .ok place ∧ place.name = target.name ∧ s.at? place = some v := by
  cases e with
  | named name =>
    cases htarget
    exact ⟨.named name, rfl, rfl, Scope.get?_of_load h⟩
  | element name index =>
    cases htarget
    obtain ⟨array, harray, h⟩ := bind_eq_ok.mp h
    obtain ⟨value, hvalue, h⟩ := bind_eq_ok.mp h
    obtain ⟨i, hi, h⟩ := bind_eq_ok.mp h
    have hindex : index.evalInteger s .index = .ok i := bind_eq_ok.mpr ⟨value, hvalue, hi⟩
    refine ⟨.element name i, map_eq_ok.mpr ⟨i, hindex, rfl⟩, rfl, ?_⟩
    rw [Scope.at?, Scope.element?, Scope.get?_of_load harray]
    exact congrArg Except.toOption h
  | _ => cases htarget

theorem Argument.place?_of_target {place : Place} (htarget : argument.value.target? = some target)
    (hplace : target.place s = .ok place) : argument.place? s = some place := by
  rw [place?, htarget, Option.bind_some, hplace]
  rfl

/-- Scopes that agree on the index of an argument give it the same place. -/
theorem Target.place_congr (h : ∀ array index, argument.value = .element array index →
      index.evalInteger now .index = index.evalInteger s .index)
    (htarget : argument.value.target? = some target) : target.place now = target.place s := by
  obtain ⟨e, byReference⟩ := argument
  cases e with
  | named name =>
    cases htarget
    rfl
  | element name index =>
    cases htarget
    rw [place, place, h name index rfl]
  | _ => cases htarget

/-- Scopes that agree on the variables that an index reads agree on the index. -/
theorem Argument.index_congr (h : ∀ name ∈ argument.indexNames, now.get? name = s.get? name) {array : String}
    {index : Expr} (he : argument.value = .element array index) :
    index.evalInteger now .index = index.evalInteger s .index := by
  rw [indexNames, he] at h
  rw [Expr.evalInteger, Expr.evalInteger, Expr.eval_congr h]

end

/-! ### Outputs are stored at the places of the arguments -/

section

variable {f : Function} {s t now : Scope} {position : Nat} {arguments : List Argument} {values slots : List Value}

/-- The outputs of a call change no variable that none of them names. -/
theorem Scope.get?_storeOutputs {name : String}
    (hname : ∀ i argument target, arguments[i]? = some argument → f.isOutput (position + i) = true →
      argument.value.target? = some target → name ≠ target.name) :
    (s.storeOutputs f position arguments slots).2.get? name = s.get? name := by
  fun_induction storeOutputs f position arguments slots s with
  | case1 position argument arguments slot slots s target htarget houtput next hstore ih =>
    have hfirst : (s.store target slot).2.get? name = s.get? name :=
      get?_store_of_ne (hname 0 argument target rfl houtput htarget)
    rw [hstore] at hfirst
    rw [ih fun i later => ?_, hfirst]
    rw [Nat.add_right_comm]
    exact hname (i + 1) later
  | case2 position argument arguments slot slots s target htarget houtput =>
    exact get?_store_of_ne (hname 0 argument target rfl houtput htarget)
  | case3 position argument arguments slot slots s _ ih =>
    refine ih fun i later => ?_
    rw [Nat.add_right_comm]
    exact hname (i + 1) later
  | case4 => rfl

theorem Function.Undisturbed.tail {argument : Argument} {slot : Value} {next : Scope}
    (hnext : ∀ more values, now.storeOutputs f position (argument :: more) (slot :: values) =
      next.storeOutputs f (position + 1) more values)
    (h : f.Undisturbed s now position (argument :: arguments) (slot :: slots)) :
    f.Undisturbed s next (position + 1) arguments slots := by
  intro i later array index hlater houtput he
  rw [Nat.add_right_comm] at houtput
  rw [← hnext]
  exact h (i + 1) later array index hlater houtput he

theorem Function.SparesIndices.tail {argument : Argument} {value slot : Value}
    (h : f.SparesIndices position (argument :: arguments) (value :: values) (slot :: slots)) :
    f.SparesIndices (position + 1) arguments values slots := by
  intro i j earlier later target hlt hearlier hlater houtput houtput' htarget hname
  rw [Nat.add_right_comm] at houtput houtput'
  exact h (i + 1) (j + 1) earlier later target (Nat.succ_lt_succ hlt) hearlier hlater houtput houtput' htarget hname

/-- A store leaves a variable as it was when the call began if it stores elsewhere, or what was there. -/
theorem Scope.get?_put_undisturbed {place : Place} {slot value : Value} {name : String}
    (hstored : now.put place slot = (.ok (), t)) (hat : s.at? place = some value) (hnow : now.get? name = s.get? name)
    (hsame : name = place.name → slot = value) : t.get? name = s.get? name := by
  by_cases hname : name = place.name
  · subst hname
    rw [← at?_congr hnow, ← hsame rfl] at hat
    rw [get?_put_same hstored hat, hnow]
  · rw [get?_put_of_ne hstored hname, hnow]

/-- What happens to the first argument of a call when its outputs are stored. -/
theorem Scope.storeOutputs_cons {argument : Argument} {slot : Value}
    (h : now.storeOutputs f position (argument :: arguments) (slot :: slots) = (.ok (), t)) :
    ∃ next, (∀ more values, now.storeOutputs f position (argument :: more) (slot :: values) =
        next.storeOutputs f (position + 1) more values) ∧
      ((∃ target place, f.isOutput position = true ∧ argument.value.target? = some target ∧
          target.place now = .ok place ∧ now.put place slot = (.ok (), next)) ∨
        (f.isOutput position = true → argument.value.target? = none) ∧ next = now) := by
  rw [storeOutputs] at h
  split at h
  · rename_i target houtput htarget
    split at h
    · rename_i next hstored
      refine ⟨next, fun more values => by simp only [storeOutputs, houtput, htarget, hstored], .inl ?_⟩
      rw [store_eq] at hstored
      cases hplace : target.place now with
      | error cause =>
        rw [hplace] at hstored
        cases hstored
      | ok place =>
        rw [hplace] at hstored
        exact ⟨target, place, houtput, htarget, hplace, hstored⟩
    · rename_i hfailed
      exact absurd h (hfailed t)
  · rename_i hnone
    have hnone : f.isOutput position = true → argument.value.target? = none :=
      fun houtput => Option.eq_none_iff_forall_ne_some.mpr (hnone · houtput)
    refine ⟨now, fun more values => ?_, .inr ⟨hnone, rfl⟩⟩
    rw [storeOutputs]
    split
    · rename_i target houtput htarget
      cases (hnone houtput).symm.trans htarget
    · rfl

theorem Function.outputs_of_place {argument : Argument} {slot : Value} {place : Place}
    (houtput : f.isOutput position = true) (hplace : argument.place? s = some place) :
    f.outputs s position (argument :: arguments) (slot :: slots) =
      (place, slot) :: f.outputs s (position + 1) arguments slots := by
  rw [outputs, if_pos houtput, hplace]
  rfl

theorem Function.outputs_of_none {argument : Argument} {slot : Value}
    (h : f.isOutput position = true → argument.place? s = none) :
    f.outputs s position (argument :: arguments) (slot :: slots) = f.outputs s (position + 1) arguments slots := by
  rw [outputs]
  cases houtput : f.isOutput position with
  | false => rfl
  | true =>
    rw [h houtput]
    rfl

/-- By induction on the arguments: where the index of an output has its old value, the output goes to its old place. -/
theorem Scope.takes_outputs (hundisturbed : f.Undisturbed s now position arguments slots)
    (h : now.storeOutputs f position arguments slots = (.ok (), t)) :
    now.Takes (f.outputs s position arguments slots) t := by
  induction arguments generalizing position slots now with
  | nil =>
    cases h
    exact .nil
  | cons argument arguments ih =>
    cases slots with
    | nil =>
      cases h
      exact .nil
    | cons slot slots =>
      obtain ⟨next, hnext, hfirst⟩ := storeOutputs_cons h
      rw [hnext] at h
      have hrest := ih (hundisturbed.tail hnext) h
      rcases hfirst with ⟨target, place, houtput, htarget, hplace, hstored⟩ | ⟨hnone, rfl⟩
      · have hindex : ∀ array index, argument.value = .element array index →
            index.evalInteger now .index = index.evalInteger s .index :=
          fun array index => hundisturbed 0 argument array index rfl houtput
        rw [Target.place_congr hindex htarget] at hplace
        rw [Function.outputs_of_place houtput (Argument.place?_of_target htarget hplace)]
        exact .cons hstored hrest
      · have hempty : f.isOutput position = true → argument.place? s = none := by
          intro houtput
          rw [Argument.place?, hnone houtput]
          rfl
        rw [Function.outputs_of_none hempty]
        exact hrest

/-- The induction is over the arguments. The scope in which the outputs are stored agrees with the one in which the
arguments were evaluated on all that the indices of outputs still to come read. -/
theorem Function.SparesIndices.undisturbed (hspares : f.SparesIndices position arguments values slots)
    (hvalues : Argument.evalAll s arguments = .ok values)
    (hagree : ∀ i argument, arguments[i]? = some argument → f.isOutput (position + i) = true →
      ∀ name ∈ argument.indexNames, now.get? name = s.get? name)
    (h : now.storeOutputs f position arguments slots = (.ok (), t)) :
    f.Undisturbed s now position arguments slots := by
  induction arguments generalizing position values slots now with
  | nil => exact fun _ _ _ _ hnone => nomatch hnone
  | cons argument arguments ih =>
    cases slots with
    | nil =>
      intro i later array index hlater houtput he
      have hnothing : ∀ more, now.storeOutputs f position more [] = (.ok (), now) := fun more => by cases more <;> rfl
      rw [List.take_nil, hnothing]
      exact Argument.index_congr (hagree i later hlater houtput) he
    | cons slot slots =>
      obtain ⟨value, hvalue, hvalues⟩ := bind_eq_ok.mp hvalues
      obtain ⟨rest, hrest, hvalues⟩ := bind_eq_ok.mp hvalues
      cases hvalues
      obtain ⟨next, hnext, hfirst⟩ := Scope.storeOutputs_cons h
      rw [hnext] at h
      have hbehind : ∀ i later, arguments[i]? = some later → f.isOutput (position + 1 + i) = true →
          ∀ name ∈ later.indexNames, next.get? name = s.get? name := by
        intro i later hlater houtput' name hread
        rw [Nat.add_right_comm] at houtput'
        have hnow := hagree (i + 1) later hlater houtput' name hread
        rcases hfirst with ⟨target, place, houtput, htarget, hplace, hstored⟩ | ⟨-, rfl⟩
        · rw [Target.place_congr (fun _ _ => Argument.index_congr (hagree 0 argument rfl houtput)) htarget] at hplace
          obtain ⟨found, hfound, hname, hat⟩ := Expr.at?_of_eval hvalue htarget
          obtain rfl : found = place := Except.ok.inj (hfound.symm.trans hplace)
          refine Scope.get?_put_undisturbed hstored hat hnow fun heq => ?_
          rw [heq, hname] at hread
          exact Option.some.inj
            (hspares 0 (i + 1) argument later target (Nat.succ_pos i) rfl hlater houtput houtput' htarget hread)
        · exact hnow
      intro i later array index hlater houtput he
      cases i with
      | zero =>
        cases hlater
        exact Argument.index_congr (hagree 0 argument rfl houtput) he
      | succ i =>
        rw [List.take_succ_cons, List.take_succ_cons, hnext]
        rw [← Nat.add_assoc, Nat.add_right_comm] at houtput
        exact ih hspares.tail hrest hbehind h i later array index hlater houtput he

theorem Function.exists_of_mem_outputs {place : Place} {v : Value}
    (h : (place, v) ∈ f.outputs s position arguments slots) :
    ∃ i argument, arguments[i]? = some argument ∧ f.isOutput (position + i) = true ∧ argument.place? s = some place := by
  induction arguments generalizing position slots with
  | nil => cases h
  | cons argument arguments ih =>
    cases slots with
    | nil => cases h
    | cons slot slots =>
      rw [outputs] at h
      rcases List.mem_append.mp h with hfirst | hlater
      · obtain ⟨found, hfound, heq⟩ := List.mem_map.mp hfirst
        cases heq
        split at hfound
        · rename_i houtput
          exact ⟨0, argument, rfl, houtput, Option.mem_toList.mp hfound⟩
        · cases hfound
      · obtain ⟨i, later, hargument, houtput, hplace⟩ := ih hlater
        rw [Nat.add_right_comm] at houtput
        exact ⟨i + 1, later, hargument, houtput, hplace⟩

/-- The outputs behind an output come from arguments behind its own. -/
theorem Function.outputs_split {i : Nat} {argument : Argument} {place : Place} {v : Value}
    (hargument : arguments[i]? = some argument) (hslot : slots[i]? = some v)
    (houtput : f.isOutput (position + i) = true) (hplace : argument.place? s = some place) :
    ∃ before after, f.outputs s position arguments slots = before ++ (place, v) :: after ∧
      ∀ w ∈ after, ∃ j later, i < j ∧ arguments[j]? = some later ∧ f.isOutput (position + j) = true ∧
        later.place? s = some w.1 := by
  induction arguments generalizing position slots i with
  | nil => cases hargument
  | cons first arguments ih =>
    cases slots with
    | nil => cases hslot
    | cons slot slots =>
      cases i with
      | zero =>
        cases hargument
        cases hslot
        refine ⟨[], f.outputs s (position + 1) arguments slots, outputs_of_place houtput hplace, fun w hw => ?_⟩
        obtain ⟨j, later, hlater, houtput', hplace'⟩ := exists_of_mem_outputs hw
        rw [Nat.add_right_comm] at houtput'
        exact ⟨j + 1, later, Nat.succ_pos j, hlater, houtput', hplace'⟩
      | succ i =>
        obtain ⟨before, after, hsplit, hafter⟩ := ih hargument hslot (Nat.add_right_comm position 1 i ▸ houtput)
        rw [outputs, hsplit, ← List.append_assoc]
        refine ⟨_, after, rfl, fun w hw => ?_⟩
        obtain ⟨j, later, hlt, hlater, houtput', hplace'⟩ := hafter w hw
        rw [Nat.add_right_comm] at houtput'
        exact ⟨j + 1, later, Nat.succ_lt_succ hlt, hlater, houtput', hplace'⟩

namespace Scope

variable {writes before after : List (Place × Value)} {name : String} {index : Int32} {v : Value}

/-- An element stays what it is if no place includes it. -/
theorem Takes.element?_of_not_includes (h : s.Takes writes t) (hwrites : ∀ w ∈ writes, ¬ w.1.Includes name index) :
    t.element? name index = s.element? name index := by
  induction h with
  | nil => rfl
  | cons hput _ ih =>
    obtain ⟨hfirst, hrest⟩ := List.forall_mem_cons.mp hwrites
    rw [ih hrest, element?_put_of_not_includes hput hfirst]

theorem Takes.split (h : s.Takes (before ++ after) t) : ∃ u, s.Takes before u ∧ u.Takes after t := by
  induction before generalizing s with
  | nil => exact ⟨s, .nil, h⟩
  | cons w before ih =>
    cases h with
    | cons hput hrest =>
      obtain ⟨u, hbefore, hafter⟩ := ih hrest
      exact ⟨u, .cons hput hbefore, hafter⟩

/-- An element is what was stored at it last. -/
theorem Takes.element?_last (h : s.Takes (before ++ (.element name index, v) :: after) t)
    (hafter : ∀ w ∈ after, ¬ w.1.Includes name index) : t.element? name index = some v := by
  obtain ⟨u, -, hrest⟩ := h.split
  cases hrest with
  | cons hput hrest => rw [hrest.element?_of_not_includes hafter, element?_put_self hput]

end Scope

end

/-! ### Calls -/

theorem Builtin.length_fill (slots : List Value) (host : Host) : (fill slots host).2.1.length = slots.length := by
  fun_induction fill slots host with
  | case1 => rfl
  | case2 => rfl
  | case3 => rfl
  | case4 slot rest host _ _ _ _ _ _ _ _ hfill ih =>
    rw [hfill] at ih
    exact congrArg (· + 1) ih

theorem Builtin.length_perform {b : Builtin} {slots : List Value} (h : b.arity.all (· = slots.length) = true)
    (host : Host) : (b.perform slots host).2.1.length = slots.length := by
  -- A built-in function that takes a fixed number of arguments takes at least one, the slot of its answer.
  have hanswer : b ≠ .read → b ≠ .write → ∀ v : Value, (slots.dropLast ++ [v]).length = slots.length := by
    intro hread hwrite v
    obtain ⟨n, harity⟩ : ∃ n, b.arity = some (n + 1) := by
      cases b <;> first | contradiction | exact ⟨_, rfl⟩
    have hlength : n + 1 = slots.length := by simpa [harity] using h
    rw [List.length_append, List.length_dropLast, List.length_singleton]
    omega
  rw [perform.eq_def]
  split
  · exact length_fill slots host
  · rfl
  · exact hanswer nofun nofun _
  · rename_i hread hwrite _
    split
    · rfl
    · exact hanswer hread hwrite _

/-- A call that is done has as many slots as before. -/
theorem Function.length_run {program : Program} {limit fuel : Nat} {f : Function} {call after : Call}
    (h : f.run program limit fuel call = (.done, after)) : after.slots.length = call.slots.length := by
  cases hbody : f.body with
  | user body =>
    rcases run_user_cases hbody h with ⟨hnot, -⟩ | ⟨-, -, _, _, _, -, -, hslots⟩
    · exact absurd rfl hnot
    · rw [hslots, Scope.length_collect]
  | builtin b =>
    cases fuel with
    | zero => cases h
    | succ fuel =>
      cases htakes : f.takes call.slots.length with
      | false =>
        rw [run_miscounted htakes] at h
        cases h
      | true =>
        rw [run_builtin htakes hbody] at h
        obtain ⟨slots, host, depth⟩ := call
        have harity : b.arity.all (· = slots.length) = true := by simpa [takes, arity, hbody] using htakes
        rw [← (Prod.mk.inj h).2]
        exact Builtin.length_perform harity host

theorem Argument.length_evalAll {s : Scope} {arguments : List Argument} {values : List Value}
    (h : evalAll s arguments = .ok values) : values.length = arguments.length := by
  induction arguments generalizing values with
  | nil =>
    cases h
    rfl
  | cons argument arguments ih =>
    obtain ⟨value, -, h⟩ := bind_eq_ok.mp h
    obtain ⟨rest, hrest, h⟩ := bind_eq_ok.mp h
    cases h
    exact congrArg (· + 1) (ih hrest)

theorem Argument.eval_of_evalAll {s : Scope} {arguments : List Argument} {values : List Value}
    (h : evalAll s arguments = .ok values) {i : Nat} {argument : Argument} (hi : arguments[i]? = some argument) :
    ∃ value, argument.value.eval s = .ok value := by
  induction arguments generalizing values i with
  | nil => cases hi
  | cons first arguments ih =>
    obtain ⟨value, hvalue, h⟩ := bind_eq_ok.mp h
    obtain ⟨rest, hrest, -⟩ := bind_eq_ok.mp h
    cases i with
    | zero =>
      cases hi
      exact ⟨value, hvalue⟩
    | succ i => exact ih hrest hi

/-- A call that is done has evaluated its arguments, run its function on them and stored the outputs. -/
theorem Frame.call_done {program : Program} {invoke : Function → Act Call} {name : String} {arguments : List Argument}
    {s : Scope} {machine : Machine} {after : Frame}
    (h : Frame.call program invoke name arguments ⟨s, machine⟩ = (.done, after)) :
    ∃ f values slots, program.function? name = some f ∧ Argument.evalAll s arguments = .ok values ∧
      invoke f ⟨values, machine⟩ = (.done, ⟨slots, after.machine⟩) ∧
      s.storeOutputs f 0 arguments slots = (.ok (), after.scope) := by
  rw [Frame.call] at h
  split at h
  · cases h
  · rename_i f hf
    split at h
    · cases h
    · split at h
      · cases h
      · rename_i values hvalues
        split at h
        · rename_i slots left hinvoke
          obtain ⟨scope, hstored, rfl⟩ := onScope_done h
          exact ⟨f, values, slots, hf, hvalues, hinvoke, hstored⟩
        · rename_i hnot _
          obtain ⟨rfl, -⟩ := Prod.mk.inj h
          exact (hnot rfl).elim

/-- A call that is done has a slot for each argument, and changes no variable that none of its outputs names. If the
index of each output still has its value when the output is stored, all of them go to the places that the arguments named
when the call began, from left to right: an element takes the value of the last output for it, and an element that no
output designates stays as it was. The indices have their values if no output changes what the index of a later one
reads. -/
theorem Stmt.call_writes_back {program : Program} {limit fuel : Nat} {place : Location} {name : String}
    {arguments : List Argument} {s t : Scope} {machine left : Machine}
    (h : (Stmt.call place name arguments).execute program limit fuel ⟨s, machine⟩ = (.done, ⟨t, left⟩)) :
    ∃ f values slots, program.function? name = some f ∧ Argument.evalAll s arguments = .ok values ∧
      f.run program limit fuel ⟨values, machine⟩ = (.done, ⟨slots, left⟩) ∧ slots.length = arguments.length ∧
      (∀ x, (∀ (i : Nat) (argument : Argument) (target : Target), arguments[i]? = some argument →
        f.isOutput i = true → argument.value.target? = some target → x ≠ target.name) → t.get? x = s.get? x) ∧
      (f.SparesIndices 0 arguments values slots → f.Undisturbed s s 0 arguments slots) ∧
      (f.Undisturbed s s 0 arguments slots →
        s.Takes (f.outputs s 0 arguments slots) t ∧
        (∀ (i : Nat) (argument : Argument) (array : String) (e : Expr) (v : Value), arguments[i]? = some argument →
          f.isOutput i = true → argument.value = .element array e → slots[i]? = some v →
            ∃ index, e.evalInteger s .index = .ok index ∧
              (.element array index, v) ∈ f.outputs s 0 arguments slots ∧
              ((∀ j, i < j → ¬ f.Designates s arguments j array index) → t.element? array index = some v)) ∧
        ∀ array index, (∀ i, ¬ f.Designates s arguments i array index) →
          t.element? array index = s.element? array index) := by
  obtain ⟨f, values, slots, hf, hvalues, hrun, hstored⟩ := Frame.call_done (Act.atLine_done h)
  have hlength : slots.length = arguments.length :=
    (Function.length_run hrun).trans (Argument.length_evalAll hvalues)
  refine ⟨f, values, slots, hf, hvalues, hrun, hlength, fun x hx => ?_, fun hspares => ?_, fun hundisturbed => ?_⟩
  · have hsame : (s.storeOutputs f 0 arguments slots).2.get? x = s.get? x :=
      Scope.get?_storeOutputs fun i argument target hargument houtput =>
        hx i argument target hargument (Nat.zero_add i ▸ houtput)
    rwa [hstored] at hsame
  · exact hspares.undisturbed hvalues (fun _ _ _ _ _ _ => rfl) hstored
  have htakes : s.Takes (f.outputs s 0 arguments slots) t := Scope.takes_outputs hundisturbed hstored
  refine ⟨htakes, fun i argument array e v hargument houtput he hv => ?_, fun array index hnone => ?_⟩
  · obtain ⟨value, hvalue⟩ := Argument.eval_of_evalAll hvalues hargument
    rw [he] at hvalue
    obtain ⟨found, hfound, -, -⟩ := Expr.at?_of_eval hvalue rfl
    obtain ⟨index, hindex, rfl⟩ := map_eq_ok.mp hfound
    have hplace : argument.place? s = some (.element array index) :=
      Argument.place?_of_target (by rw [he]; rfl) hfound
    have hoffset : f.isOutput (0 + i) = true := by rwa [Nat.zero_add]
    obtain ⟨before, after, hsplit, hafter⟩ := Function.outputs_split hargument hv hoffset hplace
    rw [hsplit] at htakes ⊢
    refine ⟨index, hindex, List.mem_append_right before List.mem_cons_self, fun hlater => ?_⟩
    refine htakes.element?_last fun w hw hincludes => ?_
    obtain ⟨j, later, hlt, hargument', houtput', hplace'⟩ := hafter w hw
    rw [Nat.zero_add] at houtput'
    exact hlater j hlt ⟨later, w.1, hargument', houtput', hplace', hincludes⟩
  · refine htakes.element?_of_not_includes fun w hw hincludes => ?_
    obtain ⟨i, argument, hargument, houtput, hplace⟩ := Function.exists_of_mem_outputs hw
    rw [Nat.zero_add] at houtput
    exact hnone i ⟨argument, w.1, hargument, houtput, hplace, hincludes⟩

/-- One function exchanges its arguments; another goes on to the next place and fills the item. -/
def exchangeSource : String :=
  Stmt.joinRows [
    "define exchange(var x: integer; var y: integer)",
    "    variables old: integer",
    "    old := x",
    "    x := y",
    "    y := old",
    "define advance(var place: integer; var item: integer)",
    "    place := place + 1",
    "    item := 7"]

namespace Example

/-- A place of 1, two more places, and a row with indices from 1 to 3. -/
def rowScope : Scope :=
  ⟨[("i", ⟨.integer 1, .integer, none, false⟩),
    ("b", ⟨.array ⟨.integer, 1, #[.integer 2, .integer 9]⟩, .array .integer, none, false⟩),
    ("a", ⟨.array ⟨.integer, 1, #[.integer 4, .integer 5, .integer 6]⟩, .array .integer, none, false⟩)]⟩

def item : Expr := .element "a" (.named "i")

def nextItem : Expr := .element "a" (.arithmetic .add (.named "i") (.literal (.integer 1)))

def secondPlace : Expr := .element "b" (.literal (.integer 2))

def itemAtFirst : Expr := .element "a" (.element "b" (.literal (.integer 1)))

/-- A call with both arguments by reference. -/
def calls (p : Program) (name : String) (first second : Expr) : Outcome × Frame :=
  (Stmt.call .blank name [⟨first, true⟩, ⟨second, true⟩]).execute p 3 9
    ⟨rowScope, .start (.ofText "") (.ofSeed 0), 0⟩

def texts (s : Scope) : List (Option String) :=
  [1, 2, 3].map fun index => (s.element? "a" index).map Value.text

/-- The texts of the row, if the call is done. -/
def row? (p : Program) (name : String) (first second : Expr) : Option (List (Option String)) :=
  match calls p name first second with
  | (.done, ⟨scope, _⟩) => some (texts scope)
  | _ => none

theorem of_row? {p : Program} {name : String} {first second : Expr} {row : List (Option String)}
    (h : row? p name first second = some row) :
    ∃ t left, calls p name first second = (.done, ⟨t, left⟩) ∧ texts t = row := by
  unfold row? at h
  split at h
  · rename_i t left hcalls
    exact ⟨t, left, hcalls, Option.some.inj h⟩
  · cases h

theorem exchangeSource_rows : ∃ ls p, lexemes exchangeSource = .ok ls ∧ Program.ofLexemes ls = .ok p ∧
    (p.function? "exchange").map (·.isOutput 1) = some true ∧
    row? p "exchange" item nextItem = some [some "5", some "4", some "6"] ∧
    row? p "exchange" secondPlace itemAtFirst = some [some "4", some "9", some "6"] ∧
    row? p "advance" (.named "i") item = some [some "4", some "7", some "6"] := by
  obtain ⟨ls, p, hls, hp, hview⟩ : ∃ ls p, lexemes exchangeSource = .ok ls ∧ Program.ofLexemes ls = .ok p ∧
      ((p.function? "exchange").map (·.isOutput 1),
        [row? p "exchange" item nextItem, row? p "exchange" secondPlace itemAtFirst,
          row? p "advance" (.named "i") item]) =
      (some true, [some [some "5", some "4", some "6"], some [some "4", some "9", some "6"],
        some [some "4", some "7", some "6"]]) :=
    exists_program (by decide +kernel)
  simp only [Prod.mk.injEq, List.cons.injEq, and_true] at hview
  exact ⟨ls, p, hls, hp, hview⟩

theorem place?_item : Argument.place? rowScope ⟨item, true⟩ = some (.element "a" 1) := by
  decide +kernel

theorem place?_nextItem : Argument.place? rowScope ⟨nextItem, true⟩ = some (.element "a" 2) := by
  decide +kernel

/-- One of two arguments designates an element only through its own place. -/
theorem not_designates {f : Function} {first second : Argument} {place place' : Place} {index : Int32}
    (hfirst : first.place? rowScope = some place) (hsecond : second.place? rowScope = some place')
    (hnot : ¬ place.Includes "a" index) (hnot' : ¬ place'.Includes "a" index) (i : Nat) :
    ¬ f.Designates rowScope [first, second] i "a" index := by
  rintro ⟨argument, found, hargument, -, hfound, hincludes⟩
  match i, hargument with
  | 0, rfl => exact hnot (Option.some.inj (hfirst.symm.trans hfound) ▸ hincludes)
  | 1, rfl => exact hnot' (Option.some.inj (hsecond.symm.trans hfound) ▸ hincludes)

end Example

/-- An item is at the place that the first element of the other row says. The second element of that row may change. -/
theorem Example.undisturbed_itemAtFirst (f : Function) (slots : List Value) :
    f.Undisturbed rowScope rowScope 0 [⟨secondPlace, true⟩, ⟨itemAtFirst, true⟩] slots := by
  intro i argument array index hargument _ he
  match i, hargument with
  | 0, rfl =>
    cases he
    rfl
  | 1, rfl =>
    cases he
    cases slots with
    | nil => rfl
    | cons slot slots =>
      rw [List.take_succ_cons, List.take_zero, List.take_succ_cons, List.take_zero, Scope.storeOutputs]
      cases f.isOutput 0 with
      | false => rfl
      | true => cases slot <;> rfl

/-- Two calls of one function. In the first the index of neither element reads the row; in the second the index of the
later output reads the array of the earlier one, but not the element that changes. -/
theorem Stmt.call_writes_back_exchange : ∃ (ls : List Lexeme) (p : Program), lexemes exchangeSource = .ok ls ∧
    Program.ofLexemes ls = .ok p ∧
    (∃ (f : Function) (slots : List Value) (t : Scope) (left : Machine),
      Example.calls p "exchange" Example.item Example.nextItem = (.done, ⟨t, left⟩) ∧
      Example.texts t = [some "5", some "4", some "6"] ∧
      Example.rowScope.Takes (f.outputs Example.rowScope 0 [⟨Example.item, true⟩, ⟨Example.nextItem, true⟩] slots) t ∧
      t.element? "a" 2 = slots[1]? ∧ t.element? "a" 3 = Example.rowScope.element? "a" 3) ∧
    ∃ (f : Function) (slots : List Value) (t : Scope) (left : Machine),
      Example.calls p "exchange" Example.secondPlace Example.itemAtFirst = (.done, ⟨t, left⟩) ∧
      Example.texts t = [some "4", some "9", some "6"] ∧
      Example.rowScope.Takes
        (f.outputs Example.rowScope 0 [⟨Example.secondPlace, true⟩, ⟨Example.itemAtFirst, true⟩] slots) t := by
  obtain ⟨ls, p, hls, hp, hmutable, hrow, hrow', -⟩ := Example.exchangeSource_rows
  refine ⟨ls, p, hls, hp, ?_, ?_⟩
  · obtain ⟨t, left, hcalls, htexts⟩ := Example.of_row? hrow
    obtain ⟨f, values, slots, hf, -, -, hlength, -, hundisturbed, hwrites⟩ := Stmt.call_writes_back hcalls
    have houtput : f.isOutput 1 = true := by simpa [hf] using hmutable
    have hspares : f.SparesIndices 0 [⟨Example.item, true⟩, ⟨Example.nextItem, true⟩] values slots := by
      intro i j earlier later target hlt hearlier hlater _ _ htarget hname
      have hj : j < 2 := (List.getElem?_eq_some_iff.mp hlater).1
      obtain ⟨rfl, rfl⟩ : i = 0 ∧ j = 1 := by omega
      cases hearlier
      cases hlater
      cases htarget
      simp [Argument.indexNames, Example.nextItem, Expr.names, Target.name] at hname
    obtain ⟨htakes, hstored, hframe⟩ := hwrites (hundisturbed hspares)
    have hslot : slots[1]? = some (slots.get ⟨1, by rw [hlength]; decide⟩) := by simp
    obtain ⟨index, hindex, -, hlast⟩ := hstored 1 _ _ _ _ rfl houtput rfl hslot
    obtain rfl : index = 2 := (Except.ok.inj hindex).symm
    refine ⟨f, slots, t, left, hcalls, htexts, htakes, ?_, hframe "a" 3 ?_⟩
    · rw [hslot]
      apply hlast
      intro j hj hdesignates
      obtain ⟨argument, -, hargument, -⟩ := hdesignates
      have hlt : j < 2 := (List.getElem?_eq_some_iff.mp hargument).1
      omega
    · exact Example.not_designates Example.place?_item Example.place?_nextItem (by decide) (by decide)
  · obtain ⟨t, left, hcalls, htexts⟩ := Example.of_row? hrow'
    obtain ⟨f, values, slots, -, -, -, -, -, -, hwrites⟩ := Stmt.call_writes_back hcalls
    obtain ⟨htakes, -, -⟩ := hwrites (Example.undisturbed_itemAtFirst f slots)
    exact ⟨f, slots, t, left, hcalls, htexts, htakes⟩

/-- The index is stored first, and the item then goes to the element that it has come to: the second, which no argument
designates. The first, which the call was given, stays as it was. -/
theorem Stmt.call_misses_element : ∃ (ls : List Lexeme) (p : Program) (t : Scope) (left : Machine),
    lexemes exchangeSource = .ok ls ∧ Program.ofLexemes ls = .ok p ∧
    Example.calls p "advance" (.named "i") Example.item = (.done, ⟨t, left⟩) ∧
    Argument.place? Example.rowScope ⟨Example.item, true⟩ = some (.element "a" 1) ∧
    Example.texts Example.rowScope = [some "4", some "5", some "6"] ∧
    Example.texts t = [some "4", some "7", some "6"] ∧
    ∀ (f : Function) (i : Nat), ¬ f.Designates Example.rowScope [⟨.named "i", true⟩, ⟨Example.item, true⟩] i "a" 2 := by
  obtain ⟨ls, p, hls, hp, -, -, -, hrow⟩ := Example.exchangeSource_rows
  obtain ⟨t, left, hcalls, htexts⟩ := Example.of_row? hrow
  have hindex : Argument.place? Example.rowScope ⟨.named "i", true⟩ = some (.named "i") := rfl
  refine ⟨ls, p, t, left, hls, hp, hcalls, Example.place?_item, by decide +kernel, htexts, fun f i => ?_⟩
  exact Example.not_designates hindex Example.place?_item (by decide) (by decide) i

end Offside
