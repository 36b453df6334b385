import Offside.Proofs.ScopeTyping
import Offside.Proofs.WellFormed

/-!
# The first values of variables

Before the body of a function starts, its constants and variables are bound, and for a program that is read this cannot
fail. Three rules have to agree on it: the check of a declaration, the choice of a first value, and the check of every
store. A range that suits its type leaves room for a first value, which is the nearest to zero within it, and no first
value is large. This holds of any list of lexemes, also of one that no source has.

Reals with a range are left aside: a limit that is not a number passes the check of a declaration.
-/

namespace Offside

/-- A range that limits reals. -/
def Range.LimitsReal (type : DataType) (range : Option Range) : Prop :=
  type = .real ∧ range ≠ none

/-! ### Values -/

namespace Value

/-- An integer within two limits that is as near to zero as any other within them. -/
structure IsNearestToZero (low high n : Int32) : Prop where
  low_le : low ≤ n
  le_high : n ≤ high
  nearest : ∀ m, low ≤ m → m ≤ high → n.toInt.natAbs ≤ m.toInt.natAbs

theorem isNearestToZero {low high : Int32} (h : low ≤ high) : IsNearestToZero low high (nearestToZero low high) := by
  have hmax : max high low = high := by
    change (if high ≤ low then low else high) = high
    split
    · exact Int32.le_antisymm h ‹_›
    · rfl
  unfold nearestToZero
  rw [hmax]
  split
  · rename_i hpos
    refine ⟨Int32.le_refl low, h, fun m hm _ => ?_⟩
    rw [Int32.lt_iff_toInt_lt, Int32.toInt_zero] at hpos
    rw [Int32.le_iff_toInt_le] at hm
    omega
  · rename_i hlow
    have hlow := Int32.not_lt.mp hlow
    split
    · rename_i hneg
      refine ⟨h, Int32.le_refl high, fun m _ hm => ?_⟩
      rw [Int32.lt_iff_toInt_lt, Int32.toInt_zero] at hneg
      rw [Int32.le_iff_toInt_le] at hm
      omega
    · rename_i hhigh
      exact ⟨hlow, Int32.not_lt.mp hhigh, fun m _ _ => Nat.zero_le _⟩

/-- What a variable of a type and a range holds when nothing has been assigned to it. An array inside an array has no
range, and then no elements. -/
inductive IsFirst : DataType → Option Range → Value → Prop where
  | integer : IsFirst .integer none (.integer 0)
  | integerWithin {low high n : Int32} (h : IsNearestToZero low high n) :
      IsFirst .integer (some ⟨.integer low, .integer high⟩) (.integer n)
  | real : IsFirst .real none (.real 0)
  | string : IsFirst .string none (.string "")
  | stringWithin {low high : Int32} {s : String} (hspaces : ∀ c ∈ s.toList, c = ' ') (hlow : s.length = low.toInt)
      (hhigh : s.length ≤ high.toInt) : IsFirst .string (some ⟨.integer low, .integer high⟩) (.string s)
  | character : IsFirst .character none (.character ' ')
  | boolean : IsFirst .boolean none (.boolean false)
  | arrayWithin {element : DataType} {low high : Int32} {items : Array Value}
      (hsize : items.size = Range.extent low high) (hitems : ∀ v ∈ items, IsFirst element none v) :
      IsFirst (.array element) (some ⟨.integer low, .integer high⟩) (.array ⟨element, low, items⟩)
  | array {element : DataType} : IsFirst (.array element) none (.array ⟨element, 0, #[]⟩)

/-- The characters of a string, or the elements of an array. -/
def extent : Value → Nat
  | .string s => s.length
  | .array cells => cells.size
  | _ => 0

theorem IsFirst.check {type : DataType} {range : Option Range} {v : Value} (h : IsFirst type range v) (name : String) :
    v.check name type range = .ok () := by
  refine check_eq_ok.mpr ⟨?_, fun r hr => ?_⟩
  · cases h <;> rfl
  · cases h with
    | integerWithin h =>
      cases hr
      simp [Range.includes, Range.integers?, h.low_le, h.le_high]
    | stringWithin _ hlow hhigh =>
      cases hr
      simp [Range.includes, Range.integers?, hlow ▸ hhigh, hlow]
    | arrayWithin => rfl
    | _ => cases hr

theorem isFirst_initial_none (type : DataType) : IsFirst type none (initial type none) := by
  cases type with
  | integer => exact .integer
  | real => exact .real
  | string => exact .string
  | character => exact .character
  | boolean => exact .boolean
  | array element => exact .array

variable {name : String} {type : DataType} {range : Option Range}

theorem length_spaces {low : Int32} (h : 0 ≤ low.toInt) :
    ((String.ofList (List.replicate low.toInt.toNat ' ')).length : Int) = low.toInt := by
  rw [String.length_ofList, List.length_replicate]
  exact Int.toNat_of_nonneg h

theorem isFirst_initial (h : Range.check name type range = .ok ()) (hreal : ¬ Range.LimitsReal type range) :
    IsFirst type range (initial type range) := by
  cases range with
  | none => exact isFirst_initial_none type
  | some r =>
    cases type with
    | integer =>
      obtain ⟨low, high, rfl, hlimits⟩ := Range.check_integers h (.inl rfl)
      obtain ⟨hordered, -, -⟩ := Range.checkIntegers_eq_ok.mp hlimits
      exact .integerWithin (isNearestToZero hordered)
    | real => exact absurd ⟨rfl, Option.some_ne_none r⟩ hreal
    | string =>
      obtain ⟨low, high, rfl, hlimits⟩ := Range.check_integers h (.inr (.inl rfl))
      obtain ⟨hordered, hlow, -⟩ := Range.checkIntegers_eq_ok.mp hlimits
      have hlength := length_spaces (hlow rfl).1
      refine .stringWithin (fun c hc => ?_) hlength ?_
      · rw [String.toList_ofList] at hc
        exact List.eq_of_mem_replicate hc
      · rw [hlength]
        exact Int32.le_iff_toInt_le.mp hordered
    | character | boolean => cases h
    | array element =>
      obtain ⟨low, high, rfl, hlimits⟩ := Range.check_integers h (.inr (.inr rfl))
      obtain ⟨hordered, -, -⟩ := Range.checkIntegers_eq_ok.mp hlimits
      have hordered := Int32.le_iff_toInt_le.mp hordered
      refine .arrayWithin ?_ fun v hv => ?_
      · rw [Array.size_replicate, Range.extent]
        omega
      · rw [(Array.mem_replicate.mp hv).2]
        exact isFirst_initial_none element

theorem extent_initial_le (h : Range.check name type range = .ok ()) : (initial type range).extent ≤ extentLimit := by
  cases type with
  | integer | real | character | boolean => exact Nat.zero_le _
  | string =>
    cases range with
    | none => exact Nat.zero_le _
    | some r =>
      obtain ⟨low, high, rfl, hlimits⟩ := Range.check_integers h (.inr (.inl rfl))
      obtain ⟨-, hlow, -⟩ := Range.checkIntegers_eq_ok.mp hlimits
      have hlength := length_spaces (hlow rfl).1
      have hlimit := (hlow rfl).2
      rw [← hlength] at hlimit
      exact Int.ofNat_le.mp hlimit
  | array element =>
    cases range with
    | none => cases h
    | some r =>
      obtain ⟨low, high, rfl, hlimits⟩ := Range.check_integers h (.inr (.inr rfl))
      obtain ⟨-, -, hextent⟩ := Range.checkIntegers_eq_ok.mp hlimits
      have hsize : (initial (.array element) (some ⟨.integer low, .integer high⟩)).extent =
          (Range.extent low high).toNat := Array.size_replicate
      rw [hsize]
      exact Int.toNat_le.mpr (hextent rfl)

end Value

/-! ### Binding -/

/-- What a constant or a variable is bound to before the body starts. -/
def Declaration.binding (d : Declaration) : Binding :=
  ⟨Function.firstValue d, d.type, d.range, !d.mutable⟩

/-- Binds declarations one after the other. -/
def Scope.bindAll (s : Scope) (ds : List Declaration) : Scope :=
  ds.foldl (fun s d => s.insert d.name d.binding) s

namespace Scope

variable {s : Scope} {ds : List Declaration}

theorem find?_bindAll_of_notMem {name : String} (h : name ∉ ds.map Declaration.name) :
    (s.bindAll ds).find? name = s.find? name := by
  induction ds generalizing s with
  | nil => rfl
  | cons d ds ih =>
    rw [List.map_cons, List.mem_cons, not_or] at h
    have hrest : ((s.insert d.name d.binding).bindAll ds).find? name = _ := ih h.2
    rw [find?_insert, if_neg h.1] at hrest
    exact hrest

theorem find?_bindAll {d : Declaration} (hd : d ∈ ds) (hdistinct : (ds.map Declaration.name).Nodup) :
    (s.bindAll ds).find? d.name = some d.binding := by
  induction ds generalizing s with
  | nil => cases hd
  | cons first rest ih =>
    obtain ⟨hnew, hrest⟩ := List.nodup_cons.mp hdistinct
    rcases List.mem_cons.mp hd with rfl | hd
    · have hfirst : ((s.insert d.name d.binding).bindAll rest).find? d.name = _ := find?_bindAll_of_notMem hnew
      rw [find?_insert, if_pos rfl] at hfirst
      exact hfirst
    · exact ih hd hrest

end Scope

namespace Function

variable {s : Scope} {ds : List Declaration}

theorem bindConstants_eq (h : ∀ d ∈ ds, d.IsLocal ∧ d.mutable = false) : bindConstants s ds = s.bindAll ds := by
  induction ds generalizing s with
  | nil => rfl
  | cons d rest ih =>
    obtain ⟨⟨hlocal, hconstant⟩, hrest⟩ := List.forall_mem_cons.mp h
    obtain ⟨value, hvalue⟩ := Option.ne_none_iff_exists'.mp (hlocal.constant hconstant)
    obtain ⟨htype, hrange⟩ := hlocal.init value hvalue
    have hbinding : d.binding = ⟨.ofLiteral value, (Value.ofLiteral value).type, none, true⟩ := by
      simp [Declaration.binding, firstValue, hvalue, htype, hrange, hconstant]
    rw [bindConstants, hvalue]
    simp only
    rw [ih hrest, Scope.define, ← hbinding]
    rfl

theorem bindVariables_eq (h : ∀ d ∈ ds, d.mutable = true ∧ (firstValue d).check d.name d.type d.range = .ok ()) :
    bindVariables s ds = .ok (s.bindAll ds) := by
  induction ds generalizing s with
  | nil => rfl
  | cons d rest ih =>
    obtain ⟨⟨hmutable, hcheck⟩, hrest⟩ := List.forall_mem_cons.mp h
    have hbinding : d.binding = ⟨firstValue d, d.type, d.range, false⟩ := by
      rw [Declaration.binding, hmutable]
      rfl
    rw [bindVariables, Scope.declare, hcheck]
    simp only
    rw [ih hrest, ← hbinding]
    rfl

/-- A first value passes the check of its own declaration. -/
theorem check_firstValue {d : Declaration} (h : d.IsLocal) (hreal : Range.LimitsReal d.type d.range →
    (Value.initial d.type d.range).check d.name d.type d.range = .ok ()) :
    (firstValue d).check d.name d.type d.range = .ok () := by
  rw [firstValue]
  cases hinit : d.init with
  | some value =>
    obtain ⟨htype, hrange⟩ := h.init value hinit
    rw [hrange]
    exact Value.check_eq_ok.mpr ⟨(Value.type_ofLiteral value).trans htype, nofun⟩
  | none =>
    by_cases hlimits : Range.LimitsReal d.type d.range
    · exact hreal hlimits
    · exact (Value.isFirst_initial (h.range hinit) hlimits).check d.name

/-- The scope before parameters are bound: it has the locals and nothing else. -/
structure BindsLocals (f : Function) (s : Scope) : Prop where
  names : ∀ name, (s.find? name).isSome ↔ name ∈ f.locals.map Declaration.name
  given : ∀ d ∈ f.locals, ∀ value, d.init = some value →
    s.find? d.name = some ⟨.ofLiteral value, d.type, d.range, !d.mutable⟩
  first : ∀ d ∈ f.locals, d.init = none → ∃ v, s.find? d.name = some ⟨v, d.type, d.range, false⟩ ∧
    v.extent ≤ 2 ^ 20 ∧ (¬ Range.LimitsReal d.type d.range → v.IsFirst d.type d.range)

variable {f : Function}

theorem perm_locals (f : Function) : (f.constants ++ f.localVariables).Perm f.locals := by
  have hvariables : f.localVariables = f.locals.filter fun d => !(!d.mutable) := by simp [localVariables]
  rw [constants, hvariables]
  exact List.filter_append_perm _ _

/-- The two passes over the locals bind each of them once. -/
theorem bind_locals (f : Function) (hlocals : ∀ d ∈ f.locals, d.IsLocal)
    (hreal : ∀ d ∈ f.locals, Range.LimitsReal d.type d.range →
      (Value.initial d.type d.range).check d.name d.type d.range = .ok ()) :
    bindVariables (bindConstants .empty f.constants) f.localVariables =
      .ok (Scope.empty.bindAll (f.constants ++ f.localVariables)) := by
  have hconstants : ∀ d ∈ f.constants, d.IsLocal ∧ d.mutable = false := by
    intro d hd
    obtain ⟨hmem, hconstant⟩ := List.mem_filter.mp hd
    exact ⟨hlocals d hmem, by simpa using hconstant⟩
  have hvariables : ∀ d ∈ f.localVariables, d.mutable = true ∧
      (firstValue d).check d.name d.type d.range = .ok () := by
    intro d hd
    obtain ⟨hmem, hmutable⟩ := List.mem_filter.mp hd
    exact ⟨hmutable, check_firstValue (hlocals d hmem) (hreal d hmem)⟩
  rw [bindConstants_eq hconstants, bindVariables_eq hvariables, Scope.bindAll, Scope.bindAll, Scope.bindAll,
    List.foldl_append]

theorem bindsLocals (hlocals : ∀ d ∈ f.locals, d.IsLocal) (hdistinct : (f.locals.map Declaration.name).Nodup) :
    f.BindsLocals (Scope.empty.bindAll (f.constants ++ f.localVariables)) := by
  have hperm := f.perm_locals
  have hdistinct : ((f.constants ++ f.localVariables).map Declaration.name).Nodup :=
    (hperm.map Declaration.name).nodup_iff.mpr hdistinct
  have hfind : ∀ d ∈ f.locals, (Scope.empty.bindAll (f.constants ++ f.localVariables)).find? d.name = some d.binding :=
    fun d hd => Scope.find?_bindAll (hperm.mem_iff.mpr hd) hdistinct
  refine ⟨fun name => ⟨fun hname => ?_, fun hname => ?_⟩, fun d hd value hvalue => ?_, fun d hd hinit => ?_⟩
  · by_contra hother
    have hother : name ∉ (f.constants ++ f.localVariables).map Declaration.name :=
      fun hmem => hother ((hperm.map Declaration.name).mem_iff.mp hmem)
    rw [Scope.find?_bindAll_of_notMem hother, Scope.find?_empty] at hname
    cases hname
  · obtain ⟨d, hd, rfl⟩ := List.mem_map.mp hname
    rw [hfind d hd]
    rfl
  · rw [hfind d hd, Declaration.binding, firstValue, hvalue]
  · have hmutable : d.mutable = true := by
      by_contra hconstant
      exact (hlocals d hd).constant (Bool.eq_false_of_not_eq_true hconstant) hinit
    have hcheck := (hlocals d hd).range hinit
    refine ⟨Value.initial d.type d.range, ?_, Value.extent_initial_le hcheck, Value.isFirst_initial hcheck⟩
    rw [hfind d hd, Declaration.binding, firstValue, hinit, hmutable]
    rfl

end Function

/-! ### Declarations that are read -/

namespace Parse

variable {c : Cursor}

theorem isLocal_of_unplaced {ds : List Declaration} (h : ∀ d ∈ ds.map Declaration.unplaced, d.IsLocal) :
    ∀ d ∈ ds, d.IsLocal :=
  fun _ hd => Declaration.isLocal_unplaced (h _ (List.mem_map_of_mem hd))

theorem read_isLocal {kind : Section} {r : Reading (List Declaration) c} (h : kind.read c = .ok r) :
    ∀ d ∈ r.value, d.IsLocal := by
  unfold Section.read at h
  split at h
  · obtain ⟨ts, -, hline⟩ := line_sound h
    exact isLocal_of_unplaced (Declaration.isLocal_of_isLine hline)
  · obtain ⟨indent, -, h⟩ := bind_eq_ok.mp h
    obtain ⟨all, hall, h⟩ := bind_eq_ok.mp h
    cases h
    rcases lines_sound hall with ⟨-, hnone⟩ | ⟨ts, -, hlines⟩
    · simp [Reading.andThen, hnone]
    · exact isLocal_of_unplaced (Declaration.isLocal_of_isLines hlines)

theorem functionBody_isLocal {defined taken : List String} {c : Cursor} {r : Reading (List Declaration × List Stmt) c}
    (h : functionBody defined taken c = .ok r) (htaken : taken.Nodup) :
    (∀ d ∈ r.value.1, d.IsLocal) ∧ ((r.value.1.map Declaration.name).reverse ++ taken).Nodup := by
  replace h := readsBody h
  induction h with
  | declare hopening hdeclared hused hrest ih =>
    obtain ⟨rfl, hnodup⟩ := reserve_sound hused htaken
    obtain ⟨hlocals, hdistinct⟩ := ih hnodup
    refine ⟨List.forall_mem_append.mpr ⟨read_isLocal hdeclared, hlocals⟩, ?_⟩
    simpa [Reading.andThen] using hdistinct
  | run => exact ⟨List.forall_mem_nil _, htaken⟩

theorem function_isLocal {defined : List String} {r : Reading Function c} (h : function defined c = .ok r) :
    (∀ d ∈ r.value.locals, d.IsLocal) ∧ (r.value.locals.map Declaration.name).Nodup := by
  obtain ⟨-, -, -, -, -, htaken, hbody⟩ := readsFunction h
  obtain ⟨hlocals, hdistinct⟩ := functionBody_isLocal hbody (reserve_sound htaken List.nodup_nil).2
  exact ⟨hlocals, (List.reverse_perm _).nodup_iff.mp (List.nodup_append.mp hdistinct).1⟩

end Parse

/-- Words of 64 bits have room for the distance between any two limits. -/
theorem Range.extent_toInt64 (low high : Int32) : (high.toInt64 - low.toInt64 + 1).toInt = Range.extent low high := by
  have hlow : -2 ^ 31 ≤ low.toInt ∧ low.toInt < 2 ^ 31 := ⟨low.le_toInt, low.toInt_lt⟩
  have hhigh : -2 ^ 31 ≤ high.toInt ∧ high.toInt < 2 ^ 31 := ⟨high.le_toInt, high.toInt_lt⟩
  have hdistance : (high.toInt64 - low.toInt64).toInt = high.toInt - low.toInt := by
    rw [Int64.toInt_sub, Int32.toInt_toInt64, Int32.toInt_toInt64]
    exact Int.bmod_eq_of_le (by omega) (by omega)
  rw [Int64.toInt_add, hdistance, Int64.toInt_one, Range.extent]
  exact Int.bmod_eq_of_le (by omega) (by omega)

/-- The constants and variables of a function that is read can always be bound. The scope then has their names and no
others, each constant and each variable with a value that is given has this value, and every other variable its first
value. Whatever passes the check of a declaration has a first value that passes the check of a store, and the distance
between limits is exact. Of a real with a range it is supposed that its first value can be stored. -/
theorem Program.functions_bindsLocals {ls : List Lexeme} {p : Program} {f : Function}
    (hp : Program.ofLexemes ls = .ok p) (hf : f ∈ p.functions)
    (hreal : ∀ d ∈ f.locals, Range.LimitsReal d.type d.range →
      (Value.initial d.type d.range).check d.name d.type d.range = .ok ()) :
    (∃ s, Function.bindVariables (Function.bindConstants .empty f.constants) f.localVariables = .ok s ∧
        f.BindsLocals s ∧ ∀ arguments, f.scopeFor arguments = Function.bindParameters s f.parameters arguments) ∧
      (∀ d ∈ f.locals, ∀ value, d.init = some value → (Value.ofLiteral value).type = d.type) ∧
      (∀ name type range, Range.check name type range = .ok () → ¬ Range.LimitsReal type range →
        (Value.initial type range).check name type range = .ok () ∧
          (Value.initial type range).IsFirst type range ∧ (Value.initial type range).extent ≤ 2 ^ 20) ∧
      ∀ low high : Int32, (high.toInt64 - low.toInt64 + 1).toInt = Range.extent low high := by
  obtain ⟨d, r, hread, rfl⟩ := (Parse.mem_functions hp hf).resolve_left List.not_mem_nil
  obtain ⟨hlocals, hdistinct⟩ := Parse.function_isLocal hread
  have hbound := r.value.bind_locals hlocals hreal
  refine ⟨⟨_, hbound, Function.bindsLocals hlocals hdistinct, fun arguments => ?_⟩, fun d hd value hvalue => ?_,
    fun name type range hcheck hlimits => ?_, Range.extent_toInt64⟩
  · rw [Function.scopeFor, hbound]
  · exact (Value.type_ofLiteral value).trans ((hlocals d hd).init value hvalue).1
  · have hfirst := Value.isFirst_initial hcheck hlimits
    exact ⟨hfirst.check name, hfirst, Value.extent_initial_le hcheck⟩

/-- Limits below zero, around it and at the end of the integers, and a real with a range. -/
def poolSource : String :=
  Stmt.joinRows [
    "define pool(var n: integer)",
    "    variables low: integer from -9 to -5",
    "    variables last: integer from 2147483646 to 2147483647",
    "    constants k = 3",
    "    variables label: string from 3 to 10",
    "    variables rows: array of boolean from -1 to 1",
    "    variables rate: real from 0.5 to 2.5",
    "    n := k"]

namespace Example

/-- The texts of the locals of a function before its body starts. -/
def localTexts (f : Function) : Option (List String) :=
  (Function.bindVariables (Function.bindConstants .empty f.constants) f.localVariables).toOption.map fun s =>
    f.locals.map fun d => d.name ++ " = " ++ ((s.get? d.name).map Value.text).getD ""

def poolTexts : List String :=
  ["low = -5", "last = 2147483646", "k = 3", "label =    ", "rows = [false, false, false]", "rate = 0.5"]

end Example

theorem Program.functions_bindsLocals_pool : ∃ ls p f s, lexemes poolSource = .ok ls ∧
    Program.ofLexemes ls = .ok p ∧ f ∈ p.functions ∧ Example.localTexts f = some Example.poolTexts ∧
    Function.bindVariables (Function.bindConstants .empty f.constants) f.localVariables = .ok s ∧
    f.BindsLocals s := by
  obtain ⟨ls, p, hls, hp, hview⟩ : ∃ ls p, lexemes poolSource = .ok ls ∧ Program.ofLexemes ls = .ok p ∧
      p.functions.map (fun f => (Example.localTexts f, f.locals.all fun d =>
        ((Value.initial d.type d.range).check d.name d.type d.range).isOk)) = [(some Example.poolTexts, true)] :=
    exists_program (by decide +kernel)
  obtain ⟨f, hf, hview⟩ := List.mem_map.mp (hview ▸ List.mem_singleton_self _)
  obtain ⟨htexts, hchecks⟩ := Prod.mk.inj hview
  have hreal : ∀ d ∈ f.locals, Range.LimitsReal d.type d.range →
      (Value.initial d.type d.range).check d.name d.type d.range = .ok () := by
    intro d hd _
    have hcheck := List.all_eq_true.mp hchecks d hd
    cases h : (Value.initial d.type d.range).check d.name d.type d.range with
    | ok => rfl
    | error cause =>
      rw [h] at hcheck
      cases hcheck
  obtain ⟨⟨s, hs, hbinds, -⟩, -⟩ := Program.functions_bindsLocals hp hf hreal
  exact ⟨ls, p, f, s, hls, hp, hf, htexts, hs, hbinds⟩

end Offside
