import Offside.Proofs.Attempt
import Offside.Proofs.Failures

/-!
# The rounds of a counting loop

The integers that a counting loop goes through are settled before its first round. So the loop is a list of statements
written out: for each of these integers an assignment to the counter, on the line of the loop, and the body behind it.
Whatever a body does to the counter, or to the variables in the bounds, changes neither the number of the rounds nor the
integers that they start with. The counter does not run over at the greatest integer, which is never stored.
-/

namespace Offside

open Act

theorem Act.andThen_assoc {σ : Type} (first second third : Act σ) :
    (first.andThen second).andThen third = first.andThen (second.andThen third) := by
  funext s
  unfold Act.andThen
  rcases first s with ⟨outcome, t⟩
  cases outcome <;> rfl

theorem Stmt.runAll_append {program : Program} {invoke : Function → Act Call} {fuel : Nat} (front back : List Stmt) :
    Stmt.runAll program invoke fuel (front ++ back) =
      (Stmt.runAll program invoke fuel front).andThen (Stmt.runAll program invoke fuel back) := by
  induction front with
  | nil =>
    rw [List.nil_append, Stmt.runAll]
    rfl
  | cons s rest ih => rw [List.cons_append, Stmt.runAll, Stmt.runAll, ih, andThen_assoc]

/-! ### The integers of a loop -/

/-- The integers from `first` on, up to `last`, which is left out. -/
def integersBetween (first last : Int32) : List Int32 :=
  (List.range (last.toInt - first.toInt).toNat).map fun (i : Nat) => Int32.ofInt (first.toInt + i)

theorem integersBetween_of_le {first last : Int32} (h : last ≤ first) : integersBetween first last = [] := by
  have hle : last.toInt ≤ first.toInt := Int32.le_iff_toInt_le.mp h
  have hcount : (last.toInt - first.toInt).toNat = 0 := by omega
  rw [integersBetween, hcount]
  rfl

theorem integersBetween_of_lt {first last : Int32} (h : first < last) :
    integersBetween first last = first :: integersBetween (first + 1) last := by
  have hlt : first.toInt < last.toInt := Int32.lt_iff_toInt_lt.mp h
  have hnext := Frame.toInt_succ h
  have hcount : (last.toInt - first.toInt).toNat = (last.toInt - (first + 1).toInt).toNat + 1 := by omega
  rw [integersBetween, integersBetween, hcount, List.range_succ_eq_map, List.map_cons, List.map_map, hnext]
  congr 1
  · simp
  · refine List.map_congr_left fun i _ => ?_
    show Int32.ofInt (first.toInt + ((i + 1 : Nat) : Int)) = _
    congr 1
    omega

/-- None of the integers runs over: they are those of the exact count. -/
theorem toInt_integersBetween (first last : Int32) : (integersBetween first last).map Int32.toInt =
    (List.range (last.toInt - first.toInt).toNat).map fun (i : Nat) => first.toInt + i := by
  rw [integersBetween, List.map_map]
  refine List.map_congr_left fun i hi => ?_
  have hi : i < (last.toInt - first.toInt).toNat := List.mem_range.mp hi
  have hlow := first.le_toInt
  have hhigh := last.toInt_lt
  show (Int32.ofInt (first.toInt + i)).toInt = _
  exact Int32.toInt_ofInt_of_le (by omega) (by omega)

/-! ### The loop written out -/

namespace Stmt

/-- The statements of a counting loop in the order in which they run, given the integers it goes through. -/
def writtenOut (place : Location) (counter : String) (body : List Stmt) (integers : List Int32) : List Stmt :=
  integers.flatMap fun k => .assign place (.named counter) (.literal (.integer k)) :: body

variable {program : Program} {invoke : Function → Act Call} {fuel : Nat}

theorem run_assign_integer (place : Location) (counter : String) (k : Int32) :
    Stmt.run program invoke fuel (.assign place (.named counter) (.literal (.integer k))) =
      (Frame.onScope fun scope => scope.assign counter (.integer k)).atLine place.line := by
  rw [Stmt.run]
  rfl

/-- By induction on the integers that are left. -/
theorem countFrom_eq_writtenOut (place : Location) (counter : String) (body : List Stmt) (last i : Int32) :
    (Frame.countFrom counter (Stmt.runAll program invoke fuel body) last i).atLine place.line =
      Stmt.runAll program invoke fuel (writtenOut place counter body (integersBetween i last)) := by
  induction hn : (last.toInt - i.toInt).toNat generalizing i with
  | zero =>
    have hle : last ≤ i := Int32.le_iff_toInt_le.mpr (by omega)
    rw [Frame.countFrom, hn, integersBetween_of_le hle, writtenOut, List.flatMap_nil, Stmt.runAll]
    rfl
  | succ n ih =>
    have hlt : i < last := Int32.lt_iff_toInt_lt.mpr (by omega)
    have hrest : (last.toInt - (i + 1).toInt).toNat = n := by
      rw [Frame.toInt_succ hlt]
      omega
    rw [Frame.countFrom_of_lt counter _ hlt, atLine_andThen, atLine_andThen, runAll_atLine, ih (i + 1) hrest,
      integersBetween_of_lt hlt]
    rw [writtenOut, writtenOut, List.flatMap_cons, runAll_append, Stmt.runAll, run_assign_integer]

end Stmt

namespace Frame

variable {counter : String} {body : Act Frame} {frame after : Frame}

/-- A round that is done: an integer is stored in the counter, and the body is done behind it. -/
def Round (counter : String) (body : Act Frame) (k : Int32) (before after : Frame) : Prop :=
  ∃ scope, before.scope.assign counter (.integer k) = (.ok (), scope) ∧ body ⟨scope, before.machine⟩ = (.done, after)

theorem round_iff {k : Int32} : Round counter body k frame after ↔
    (Act.andThen (onScope fun scope => scope.assign counter (.integer k)) body) frame = (.done, after) := by
  constructor
  · intro h
    obtain ⟨scope, hstored, hbody⟩ := h
    exact (andThen_of_done (onScope_ok hstored)).trans hbody
  · intro h
    obtain ⟨stored, hstored, hbody⟩ := andThen_done h
    obtain ⟨scope, hscope, rfl⟩ := onScope_done hstored
    exact ⟨scope, hscope, hbody⟩

/-- A counting loop is done if and only if a round is done for each of its integers, in their order. -/
theorem countFrom_done_iff {last i : Int32} : countFrom counter body last i frame = (.done, after) ↔
    ∃ reached : Nat → Frame, reached 0 = frame ∧ reached (integersBetween i last).length = after ∧
      ∀ n k, (integersBetween i last)[n]? = some k → Round counter body k (reached n) (reached (n + 1)) := by
  induction hn : (last.toInt - i.toInt).toNat generalizing i frame with
  | zero =>
    have hle : last ≤ i := Int32.le_iff_toInt_le.mpr (by omega)
    rw [countFrom, hn, integersBetween_of_le hle]
    constructor
    · intro h
      obtain ⟨-, rfl⟩ := Prod.mk.inj h
      exact ⟨fun _ => frame, rfl, rfl, by simp⟩
    · intro h
      obtain ⟨reached, rfl, rfl, -⟩ := h
      rfl
  | succ n ih =>
    have hlt : i < last := Int32.lt_iff_toInt_lt.mpr (by omega)
    have hrest : (last.toInt - (i + 1).toInt).toNat = n := by
      rw [toInt_succ hlt]
      omega
    rw [countFrom_of_lt counter body hlt, integersBetween_of_lt hlt]
    constructor
    · intro h
      obtain ⟨next, hround, hdone⟩ := andThen_done h
      obtain ⟨reached, rfl, hafter, hrounds⟩ := (ih hrest).mp hdone
      refine ⟨fun m => if m = 0 then frame else reached (m - 1), rfl, hafter, fun m k hk => ?_⟩
      by_cases hm : m = 0
      · subst hm
        obtain rfl : i = k := by simpa using hk
        exact round_iff.mpr hround
      · obtain ⟨m, rfl⟩ : ∃ j, m = j + 1 := ⟨m - 1, by omega⟩
        exact hrounds m k (by simpa using hk)
    · intro h
      obtain ⟨reached, rfl, hafter, hrounds⟩ := h
      refine (andThen_of_done (round_iff.mp (hrounds 0 i rfl))).trans ?_
      exact (ih hrest).mpr ⟨fun m => reached (m + 1), rfl, hafter, fun m k hk => hrounds (m + 1) k hk⟩

end Frame

/-! ### Counting loops -/

section

variable {first last : Expr} {frame : Frame} {low high : Int32}

theorem Frame.bounds_eq (hfirst : first.eval frame.scope = .ok (.integer low))
    (hlast : last.eval frame.scope = .ok (.integer high)) :
    Frame.bounds first last frame = if low < high then .ok (low, high) else .error (.emptyCount low high) := by
  simp only [Frame.bounds, Expr.evalInteger, hfirst, hlast, ok_bind, Value.asInteger]
  rfl

variable {program : Program} {invoke : Function → Act Call} {fuel : Nat} {place : Location} {counter : String}
  {body : List Stmt}

theorem Stmt.run_count_of_le (hfirst : first.eval frame.scope = .ok (.integer low))
    (hlast : last.eval frame.scope = .ok (.integer high)) (hle : high ≤ low) :
    Stmt.run program invoke fuel (.count place counter first last body) frame =
      (.failed ⟨.emptyCount low high, some place.line⟩, frame) := by
  rw [Stmt.run, Act.atLine, Frame.count, Act.withValue, Frame.bounds_eq hfirst hlast, if_neg (Int32.not_lt.mpr hle)]
  rfl

theorem Stmt.run_count_of_lt (hfirst : first.eval frame.scope = .ok (.integer low))
    (hlast : last.eval frame.scope = .ok (.integer high)) (hlt : low < high) :
    Stmt.run program invoke fuel (.count place counter first last body) frame =
      (Frame.countFrom counter (Stmt.runAll program invoke fuel body) high low).atLine place.line frame := by
  rw [Stmt.run, Act.atLine, Frame.count, Act.withValue, Frame.bounds_eq hfirst hlast, if_pos hlt]
  rfl

end

/-- A counting loop whose bounds are integers fails at once if the first is not below the last, and leaves everything as
it was. Otherwise it does what its statements written out do, once for each integer from the first bound up to the last,
which is left out; if it is done, so is one round for each of them. -/
theorem Stmt.run_count (program : Program) (invoke : Function → Act Call) (fuel : Nat) (place : Location)
    (counter : String) (first last : Expr) (body : List Stmt) (frame : Frame) (low high : Int32)
    (hfirst : first.eval frame.scope = .ok (.integer low)) (hlast : last.eval frame.scope = .ok (.integer high)) :
    (high ≤ low → Stmt.run program invoke fuel (.count place counter first last body) frame =
        (.failed ⟨.emptyCount low high, some place.line⟩, frame) ∧
      (Cause.emptyCount low high).kind = .countBounds) ∧
    (low < high →
      Stmt.run program invoke fuel (.count place counter first last body) frame =
        Stmt.runAll program invoke fuel (writtenOut place counter body (integersBetween low high)) frame ∧
      (integersBetween low high).map Int32.toInt =
        (List.range (high.toInt - low.toInt).toNat).map (fun (i : Nat) => low.toInt + i) ∧
      ∀ after, Stmt.run program invoke fuel (.count place counter first last body) frame = (.done, after) ↔
        ∃ reached : Nat → Frame, reached 0 = frame ∧ reached (high.toInt - low.toInt).toNat = after ∧
          ∀ n k, (integersBetween low high)[n]? = some k →
            Frame.Round counter (Stmt.runAll program invoke fuel body) k (reached n) (reached (n + 1))) := by
  refine ⟨fun hle => ⟨run_count_of_le hfirst hlast hle, rfl⟩,
    fun hlt => ⟨?_, toInt_integersBetween low high, fun after => ?_⟩⟩
  · rw [run_count_of_lt hfirst hlast hlt, countFrom_eq_writtenOut]
  · have hlength : (integersBetween low high).length = (high.toInt - low.toInt).toNat := by simp [integersBetween]
    rw [run_count_of_lt hfirst hlast hlt, ← hlength, ← Frame.countFrom_done_iff]
    constructor
    · exact atLine_done
    · intro h
      rw [Act.atLine, h]
      rfl

namespace Example

/-- A counter, and the last integer but two. -/
def edgeFrame : Frame :=
  ⟨(Scope.empty.insert "i" ⟨.integer 0, .integer, none, false⟩).insert "n" ⟨.integer 2147483645, .integer, none, false⟩,
    .start (.ofText "") (.ofSeed 0), 0⟩

/-- Keeps the counter in the variable that the bounds are made of, and sets it back. -/
def edgeBody : List Stmt :=
  [.assign ⟨⟨0, 0⟩, 2⟩ (.named "n") (.named "i"), .assign ⟨⟨0, 0⟩, 3⟩ (.named "i") (.literal (.integer 0))]

end Example

/-- A loop up to the greatest integer, whose body changes the counter and the bounds, takes its two rounds; from the
greatest integer to the least there is none. -/
theorem Stmt.run_count_edge :
    (∃ after, Stmt.run .empty (fun _ => .skip) 0 (.count ⟨⟨0, 0⟩, 1⟩ "i" (.named "n")
        (.arithmetic .add (.named "n") (.literal (.integer 2))) Example.edgeBody) Example.edgeFrame = (.done, after) ∧
      after.scope.get? "n" = some (.integer 2147483646) ∧
      ∃ reached : Nat → Frame, reached 0 = Example.edgeFrame ∧ reached 2 = after ∧
        ∀ n k, (integersBetween 2147483645 2147483647)[n]? = some k →
          Frame.Round "i" (Stmt.runAll .empty (fun _ => .skip) 0 Example.edgeBody) k (reached n) (reached (n + 1))) ∧
    Stmt.run .empty (fun _ => .skip) 0 (.count ⟨⟨0, 0⟩, 1⟩ "i" (.literal (.integer 2147483647))
        (.literal (.integer (-2147483648))) Example.edgeBody) Example.edgeFrame =
      (.failed ⟨.emptyCount 2147483647 (-2147483648), some 1⟩, Example.edgeFrame) := by
  refine ⟨⟨_, rfl, rfl, ?_⟩, ?_⟩
  · obtain ⟨-, hrounds⟩ := Stmt.run_count .empty (fun _ => .skip) 0 ⟨⟨0, 0⟩, 1⟩ "i" (.named "n")
      (.arithmetic .add (.named "n") (.literal (.integer 2))) Example.edgeBody Example.edgeFrame 2147483645 2147483647
      rfl rfl
    exact ((hrounds (by decide)).2.2 _).mp rfl
  · exact ((Stmt.run_count .empty (fun _ => .skip) 0 ⟨⟨0, 0⟩, 1⟩ "i" _ _ Example.edgeBody Example.edgeFrame _ _ rfl
      rfl).1 (by decide)).1

end Offside
