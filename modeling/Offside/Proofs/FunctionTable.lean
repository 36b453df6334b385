import Offside.Proofs.ParseProgram

/-!
# The table of functions

A program takes functions one after the other, and refuses those whose name is taken. Whatever functions are offered,
and however many of them are refused, the table holds those that were taken, in the order of the offers; their names are
different, and none is that of a built-in function. So a name stands for one function at most. The same table can be
kept with a register, which leads from each name to the position of its function, while the built-in functions stand in
a row of their own: the register stays in step with the list through all offers, and finds the same functions.
-/

namespace Offside

/-! ### The names of built-in functions -/

namespace Builtin

theorem ofName?_name (b : Builtin) : ofName? b.name = some b := by
  cases b <;> rfl

theorem ofName?_eq_some {name : String} {b : Builtin} : ofName? name = some b ↔ b.name = name := by
  constructor
  · intro h
    simpa using List.find?_some h
  · rintro rfl
    exact ofName?_name b

theorem ofName?_eq_none {name : String} : ofName? name = none ↔ ∀ b : Builtin, b.name ≠ name := by
  rw [Option.eq_none_iff_forall_ne_some]
  simp only [ne_eq, ofName?_eq_some]

end Builtin

/-! ### Offers in a row -/

/-- The answers to offers in a row, and what the last of them leaves behind. -/
def offerEach {σ : Type} (offer : σ → Function → Except DefineError Unit × σ) :
    σ → List Function → List (Except DefineError Unit) × σ
  | table, [] => ([], table)
  | table, f :: fs =>
    let rest := offerEach offer (offer table f).2 fs
    ((offer table f).1 :: rest.1, rest.2)

/-- The functions that were answered without an error. -/
def accepted (fs : List Function) (answers : List (Except DefineError Unit)) : List Function :=
  ((fs.zip answers).filter (·.2.isOk)).map Prod.fst

theorem length_offerEach {σ : Type} (offer : σ → Function → Except DefineError Unit × σ) (table : σ)
    (fs : List Function) : (offerEach offer table fs).1.length = fs.length := by
  induction fs generalizing table with
  | nil => rfl
  | cons f fs ih => exact congrArg (· + 1) (ih _)

namespace Program

open Parse (define_eq_ok DistinctNames)

variable {p : Program} {f : Function} {name : String}

/-- A function is added, or the program stays as it is. -/
def offer (p : Program) (f : Function) : Except DefineError Unit × Program :=
  match p.define f with
  | .ok q => (.ok (), q)
  | .error e => (.error e, p)

theorem find?_eq_none : p.find? name = none ↔ ∀ g ∈ p.functions, g.name ≠ name := by
  simp [find?]

theorem isSome_find? : (p.find? name).isSome ↔ ∃ g ∈ p.functions, g.name = name := by
  simp [find?]

/-- Why a function is refused: the built-in functions come first. -/
theorem define_eq_error {e : DefineError} : p.define f = .error e ↔
    (∃ b : Builtin, b.name = f.name) ∧ e = .builtin f.name ∨
    (∀ b : Builtin, b.name ≠ f.name) ∧ (∃ g ∈ p.functions, g.name = f.name) ∧ e = .duplicate f.name := by
  rw [define, ← isSome_find?]
  cases hbuiltin : Builtin.ofName? f.name with
  | some b =>
    have hname := Builtin.ofName?_eq_some.mp hbuiltin
    constructor
    · rintro ⟨⟩
      exact .inl ⟨⟨b, hname⟩, rfl⟩
    · rintro (⟨-, rfl⟩ | ⟨hnone, -⟩)
      · rfl
      · exact absurd hname (hnone b)
  | none =>
    have hnone := Builtin.ofName?_eq_none.mp hbuiltin
    by_cases hfound : (p.find? f.name).isSome = true
    · simp [hnone, hfound, eq_comm]
    · simp [hnone, hfound]

/-- What one offer does: all that is said of a row of offers comes from these two cases. -/
theorem offer_cases (p : Program) (f : Function) :
    (p.offer f = (.ok (), ⟨p.functions ++ [f]⟩) ∧ Builtin.ofName? f.name = none ∧
      f.name ∉ p.functions.map Function.name) ∨
    ∃ e, p.define f = .error e ∧ p.offer f = (.error e, p) := by
  unfold offer
  cases hdefine : p.define f with
  | ok q =>
    obtain ⟨hbuiltin, hnew, rfl⟩ := define_eq_ok.mp hdefine
    exact .inl ⟨rfl, hbuiltin, hnew⟩
  | error e => exact .inr ⟨e, rfl, rfl⟩

theorem offer_of_error {e : DefineError} (h : p.define f = .error e) : p.offer f = (.error e, p) := by
  rw [offer, h]

theorem functions_offerEach (p : Program) (fs : List Function) :
    (offerEach offer p fs).2.functions = p.functions ++ accepted fs (offerEach offer p fs).1 := by
  induction fs generalizing p with
  | nil => exact (List.append_nil _).symm
  | cons f fs ih =>
    rw [offerEach]
    dsimp only
    rw [ih]
    rcases p.offer_cases f with ⟨hoffer, -⟩ | ⟨e, -, hoffer⟩
    · rw [hoffer]
      simp [accepted, Except.isOk, Except.toBool]
    · rw [hoffer]
      simp [accepted, Except.isOk, Except.toBool]

theorem distinctNames_offerEach (fs : List Function) (h : DistinctNames (p.functions.map Function.name)) :
    DistinctNames ((offerEach offer p fs).2.functions.map Function.name) := by
  induction fs generalizing p with
  | nil => exact h
  | cons f fs ih =>
    apply ih
    rcases p.offer_cases f with ⟨hoffer, hbuiltin, hnew⟩ | ⟨e, -, hoffer⟩
    · rw [hoffer]
      simpa using h.snoc hnew hbuiltin
    · rw [hoffer]
      exact h

/-- If no two functions have the same name, each is found by its own. -/
theorem function?_of_mem (hnames : (p.functions.map Function.name).Nodup) (hf : f ∈ p.functions) :
    p.function? f.name = some f := by
  have hfind : p.functions.find? (·.name = f.name) = some f := by
    obtain ⟨before, after, hsplit⟩ := List.append_of_mem hf
    rw [hsplit] at hnames ⊢
    have hbefore : ∀ g ∈ before, ¬ g.name = f.name := by
      intro g hg hsame
      simp only [List.map_append, List.map_cons, List.nodup_append] at hnames
      exact hnames.2.2 g.name (List.mem_map_of_mem hg) f.name List.mem_cons_self hsame
    rw [List.find?_append, List.find?_eq_none.mpr (by simpa using hbefore)]
    simp
  rw [function?, find?, hfind]

theorem function?_of_builtin (h : ∀ g ∈ p.functions, g.name ≠ name) :
    p.function? name = (Builtin.ofName? name).map Function.ofBuiltin := by
  rw [function?, find?_eq_none.mpr h]

theorem function?_eq_some (h : DistinctNames (p.functions.map Function.name)) : p.function? name = some f ↔
    f ∈ p.functions ∧ f.name = name ∨ ∃ b : Builtin, b.name = name ∧ f = .ofBuiltin b := by
  constructor
  · intro hfound
    unfold function? at hfound
    split at hfound
    · rename_i g hg
      cases hfound
      exact .inl ⟨List.mem_of_find?_eq_some hg, by simpa using List.find?_some hg⟩
    · obtain ⟨b, hb, rfl⟩ := Option.map_eq_some_iff.mp hfound
      exact .inr ⟨b, Builtin.ofName?_eq_some.mp hb, rfl⟩
  · rintro (⟨hf, rfl⟩ | ⟨b, rfl, rfl⟩)
    · exact function?_of_mem h.1 hf
    · have hother : ∀ g ∈ p.functions, g.name ≠ b.name := fun g hg hsame =>
        Builtin.ofName?_eq_none.mp (h.2 g.name (List.mem_map_of_mem hg)) b hsame.symm
      rw [function?_of_builtin hother, Builtin.ofName?_name, Option.map_some]

theorem function?_eq_none :
    p.function? name = none ↔ (∀ g ∈ p.functions, g.name ≠ name) ∧ ∀ b : Builtin, b.name ≠ name := by
  rw [← find?_eq_none, ← Builtin.ofName?_eq_none, function?]
  cases p.find? name with
  | some g => simp
  | none => simp

end Program

/-! ### A table with positions -/

/-- Functions in the order of their definition, the built-in functions in theirs, and for each name that is defined the
position of its function. -/
structure Register where
  functions : List Function
  builtins : List Function
  positions : List (String × Nat)

namespace Register

def empty : Register :=
  ⟨[], Builtin.all.map .ofBuiltin, []⟩

/-- Adds a function at the end and notes its position. -/
def offer (t : Register) (f : Function) : Except DefineError Unit × Register :=
  if (Builtin.ofName? f.name).isSome then (.error (.builtin f.name), t)
  else if (t.positions.lookup f.name).isSome then (.error (.duplicate f.name), t)
  else (.ok (), ⟨t.functions ++ [f], t.builtins, (f.name, t.functions.length) :: t.positions⟩)

/-- The function at the position of a name, or the built-in function at the place that it has among its like. -/
def function? (t : Register) (name : String) : Option Function :=
  match t.positions.lookup name with
  | some i => t.functions[i]?
  | none => (Builtin.ofName? name).bind fun b => t.builtins[b.ctorIdx]?

/-- A register is in step with a program: the positions are those of the functions with their names, and no others. -/
structure InStep (t : Register) (p : Program) : Prop where
  functions : t.functions = p.functions
  builtins : t.builtins = Builtin.all.map .ofBuiltin
  positions : ∀ name i, t.positions.lookup name = some i ↔ (p.functions.map Function.name)[i]? = some name

open Parse (DistinctNames)

variable {t : Register} {p : Program}

theorem inStep_empty : InStep .empty .empty :=
  ⟨rfl, rfl, by simp [empty, Program.empty]⟩

theorem InStep.lookup_isSome (h : InStep t p) (name : String) :
    (t.positions.lookup name).isSome ↔ name ∈ p.functions.map Function.name := by
  rw [Option.isSome_iff_exists, List.mem_iff_getElem?]
  simp only [h.positions]

theorem getElem?_snoc {α : Type} {xs : List α} {x y : α} {i : Nat} :
    (xs ++ [x])[i]? = some y ↔ xs[i]? = some y ∨ i = xs.length ∧ x = y := by
  rcases Nat.lt_trichotomy i xs.length with hi | rfl | hi
  · rw [List.getElem?_append_left hi]
    simp [Nat.ne_of_lt hi]
  · simp
  · rw [List.getElem?_eq_none (Nat.le_of_lt hi), List.getElem?_append_right (Nat.le_of_lt hi)]
    simp [Nat.sub_ne_zero_of_lt hi, Nat.ne_of_gt hi]

/-- The position behind the last function is the one that a new function takes. -/
theorem InStep.snoc (h : InStep t p) {f : Function} (hnew : f.name ∉ p.functions.map Function.name) :
    InStep ⟨t.functions ++ [f], t.builtins, (f.name, t.functions.length) :: t.positions⟩ ⟨p.functions ++ [f]⟩ := by
  refine ⟨congrArg (· ++ [f]) h.functions, h.builtins, fun name i => ?_⟩
  have hlength : t.functions.length = (p.functions.map Function.name).length := by
    rw [h.functions, List.length_map]
  rw [List.map_append, List.map_cons, List.map_nil, getElem?_snoc, ← hlength, List.lookup_cons]
  by_cases hname : name = f.name
  · -- No earlier function has the name, so it leads to the new position only.
    subst hname
    simp only [beq_self_eq_true, Option.some.injEq, and_true]
    constructor
    · rintro rfl
      exact .inr rfl
    · rintro (hsome | rfl)
      · exact absurd (List.mem_of_getElem? hsome) hnew
      · rfl
  · have hne : (name == f.name) = false := by simpa using hname
    simp only [hne, h.positions]
    simp [Ne.symm hname]

/-- An offer is answered in the same way, and the two stay in step. -/
theorem InStep.offer (h : InStep t p) (f : Function) :
    (t.offer f).1 = (p.offer f).1 ∧ InStep (t.offer f).2 (p.offer f).2 := by
  rcases p.offer_cases f with ⟨hoffer, hbuiltin, hnew⟩ | ⟨e, hdefine, hoffer⟩
  · have hlookup : ¬(t.positions.lookup f.name).isSome = true := fun hsome => hnew ((h.lookup_isSome f.name).mp hsome)
    rw [hoffer, Register.offer, hbuiltin, if_neg (by simp), if_neg hlookup]
    exact ⟨rfl, h.snoc hnew⟩
  · rw [hoffer]
    rcases Program.define_eq_error.mp hdefine with ⟨⟨b, hb⟩, rfl⟩ | ⟨hnone, ⟨g, hg, hname⟩, rfl⟩
    · rw [Register.offer, ← hb, Builtin.ofName?_name]
      exact ⟨rfl, h⟩
    · have hlookup : (t.positions.lookup f.name).isSome = true :=
        (h.lookup_isSome f.name).mpr (hname ▸ List.mem_map_of_mem hg)
      rw [Register.offer, Builtin.ofName?_eq_none.mpr hnone, if_neg (by simp), if_pos hlookup]
      exact ⟨rfl, h⟩

theorem InStep.offerEach (h : InStep t p) (fs : List Function) :
    (offerEach Register.offer t fs).1 = (offerEach Program.offer p fs).1 ∧
      InStep (offerEach Register.offer t fs).2 (offerEach Program.offer p fs).2 := by
  induction fs generalizing t p with
  | nil => exact ⟨rfl, h⟩
  | cons f fs ih =>
    obtain ⟨hanswer, hnext⟩ := h.offer f
    obtain ⟨hanswers, hrest⟩ := ih hnext
    exact ⟨(List.cons.injEq ..).mpr ⟨hanswer, hanswers⟩, hrest⟩

/-- A refused function leaves nothing behind. -/
theorem offer_unchanged {f : Function} {e : DefineError} (h : (t.offer f).1 = .error e) : (t.offer f).2 = t := by
  unfold offer at h ⊢
  split
  · rfl
  · rename_i hbuiltin
    rw [if_neg hbuiltin] at h
    split
    · rfl
    · rename_i hlookup
      rw [if_neg hlookup] at h
      cases h

/-- The built-in functions stand where the order of their kinds puts them. -/
theorem getElem?_builtins (b : Builtin) : (Builtin.all.map Function.ofBuiltin)[b.ctorIdx]? = some (.ofBuiltin b) := by
  cases b <;> rfl

theorem InStep.function?_eq (h : InStep t p) (hnames : DistinctNames (p.functions.map Function.name)) (name : String) :
    t.function? name = p.function? name := by
  unfold Register.function?
  cases hlookup : t.positions.lookup name with
  | some i =>
    have hname := (h.positions name i).mp hlookup
    rw [List.getElem?_map, Option.map_eq_some_iff] at hname
    obtain ⟨f, hf, rfl⟩ := hname
    rw [Program.function?_of_mem hnames.1 (List.mem_of_getElem? hf), ← hf, ← h.functions]
  | none =>
    have hother : ∀ g ∈ p.functions, g.name ≠ name := by
      rintro g hg rfl
      have hsome := (h.lookup_isSome g.name).mpr (List.mem_map_of_mem hg)
      rw [hlookup] at hsome
      cases hsome
    rw [Program.function?_of_builtin hother, h.builtins]
    cases Builtin.ofName? name with
    | none => rfl
    | some b => exact getElem?_builtins b

end Register

/-- Whatever functions are offered to an empty program: it holds those that were not refused, in the order of the
offers. Their names differ from each other and from those of the built-in functions, and a function is refused exactly
if its name is taken. A name stands for the function that has it, be it defined or built in, and for nothing if there is
none. A register gives the same answers throughout, is left as it was by a function that it refuses, and finds the same
function under every name. -/
theorem Program.offers_consistent (fs : List Function) :
    ∃ answers p t, offerEach Program.offer .empty fs = (answers, p) ∧
      offerEach Register.offer .empty fs = (answers, t) ∧
      answers.length = fs.length ∧ p.functions = accepted fs answers ∧
      (p.functions.map Function.name).Nodup ∧ (∀ f ∈ p.functions, ∀ b : Builtin, b.name ≠ f.name) ∧
      (∀ f e, p.define f = .error e ↔
        (∃ b : Builtin, b.name = f.name) ∧ e = .builtin f.name ∨
        (∀ b : Builtin, b.name ≠ f.name) ∧ (∃ g ∈ p.functions, g.name = f.name) ∧ e = .duplicate f.name) ∧
      (∀ name f, p.function? name = some f ↔
        f ∈ p.functions ∧ f.name = name ∨ ∃ b : Builtin, b.name = name ∧ f = .ofBuiltin b) ∧
      (∀ name, p.function? name = none ↔
        (∀ g ∈ p.functions, g.name ≠ name) ∧ ∀ b : Builtin, b.name ≠ name) ∧
      t.InStep p ∧ (∀ f, (t.offer f).1 = (p.offer f).1) ∧
      (∀ f e, p.define f = .error e → p.offer f = (.error e, p) ∧ t.offer f = (.error e, t)) ∧
      ∀ name, t.function? name = p.function? name := by
  have hnames : Parse.DistinctNames ((offerEach offer .empty fs).2.functions.map Function.name) :=
    distinctNames_offerEach fs (by simp [Parse.DistinctNames, empty])
  obtain ⟨hanswers, hstep⟩ := Register.inStep_empty.offerEach fs
  refine ⟨_, _, _, rfl, Prod.ext hanswers rfl, length_offerEach _ _ fs, functions_offerEach .empty fs, hnames.1, ?_,
    fun f e => define_eq_error, fun name f => function?_eq_some hnames, fun name => function?_eq_none, hstep,
    fun f => (hstep.offer f).1, ?_, hstep.function?_eq hnames⟩
  · intro f hf
    exact Builtin.ofName?_eq_none.mp (hnames.2 f.name (List.mem_map_of_mem hf))
  · intro f e hdefine
    have hoffer := offer_of_error hdefine
    have hanswer := (hstep.offer f).1
    rw [hoffer] at hanswer
    exact ⟨hoffer, Prod.ext hanswer (Register.offer_unchanged hanswer)⟩

end Offside
