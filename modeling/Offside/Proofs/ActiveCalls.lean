import Offside.Proofs.CallDepth
import Offside.Proofs.Failures
import Offside.Proofs.Watched

/-!
# The count of calls under way is exact

The machine counts calls by going up when a user function is let in and down when it is left. Watching a session
shows that this count is the number of invocations that are active, at every call and at the start of every body, and
that it is back at zero whenever a request has been answered, whether the request failed or not.
-/

namespace Offside

namespace Function

variable {program : Program} {limit fuel : Nat} {f : Function} {call : Call} {body : List Stmt}

/-- Where there is room, a failure for depth is one of the body. -/
theorem Admits.failed_of_depth {fault : Fault} (hadmits : f.Admits limit call body)
    (h : (f.run program limit (fuel + 1) call).1 = .failed fault) (hkind : fault.cause.kind = .depth) :
    ∃ scope, f.scopeFor call.slots = .ok scope ∧
      (Stmt.executeAll program limit body fuel (call.machine.entered scope)).1 = .failed fault := by
  rw [run_admitted hadmits, scopeFor_eq_error] at h
  rcases h with (⟨d, cause, hlocal, rfl⟩ | ⟨cause, hpassed, rfl⟩) | hran
  · rcases hlocal.kind with hother | hother <;> cases hother.symm.trans hkind
  · rcases hpassed.kind with hother | hother <;> cases hother.symm.trans hkind
  · exact hran

/-- A call of a user function fails for depth, without a line and with nothing changed, exactly when the count has
reached the limit. -/
theorem run_tooDeep_iff (hbody : f.body = .user body) (htakes : f.takes call.slots.length = true) :
    f.run program limit (fuel + 1) call = (.failed (.of (.tooDeep limit)), call) ↔ limit ≤ call.machine.depth := by
  constructor
  · intro h
    refine Nat.le_of_not_lt fun hroom => ?_
    -- Whatever fails in the body has a line.
    obtain ⟨scope, -, hran⟩ := Admits.failed_of_depth ⟨htakes, hbody, hroom⟩ (congrArg Prod.fst h) rfl
    exact Stmt.runAll_placed hran _ rfl
  · intro hdeep
    obtain ⟨slots, host, depth⟩ := call
    rw [run_user htakes hbody, Call.nested, if_pos hdeep]

end Function

namespace Watched

open Act

/-- What was recorded of a moment agrees with the count of the machine at that moment. -/
def Moment.Exact (m : Moment) : Prop :=
  m.active.length ≤ m.limit ∧
    match m.event with
    | .called _ call => call.machine.depth = m.active.length
    | .started f frame => m.active.head? = some f ∧ frame.machine.depth = m.active.length

/-- The machine counts the active invocations, there are no more of them than the limit allows, and every moment of
the record is exact. -/
structure Counted (limit : Nat) (machine : Machine) (r : Record) : Prop where
  depth : machine.depth = r.active.length
  room : r.active.length ≤ limit
  exact : ∀ m ∈ r.moments, m.Exact

/-- The count stays right, and the same invocations are active in the end. -/
def Steady {σ : Type} (limit : Nat) (machine : σ → Machine) (before after : σ × Record) : Prop :=
  Counted limit (machine before.1) before.2 →
    Counted limit (machine after.1) after.2 ∧ after.2.active = before.2.active

section

variable {σ : Type} {limit : Nat} {machine : σ → Machine} {before : Machine} {r : Record}

theorem lasting_steady : Lasting (Steady limit machine) where
  refl _ := fun h => ⟨h, rfl⟩
  trans hst htu := fun hs => by
    obtain ⟨ht, hactive⟩ := hst hs
    obtain ⟨hu, hactive'⟩ := htu ht
    exact ⟨hu, hactive'.trans hactive⟩

theorem Counted.note {event : Event} (h : Counted limit before r) (hevent : Moment.Exact ⟨limit, r.active, event⟩) :
    Counted limit before (r.note limit event) where
  depth := h.depth
  room := h.room
  exact := List.forall_mem_append.mpr ⟨h.exact, by simpa using hevent⟩

theorem Counted.called (h : Counted limit before r) (f : Function) (slots : List Value) :
    Counted limit before (r.note limit (.called f ⟨slots, before⟩)) :=
  h.note ⟨h.room, h.depth⟩

/-- Where there is room, the count goes up with the invocation that becomes active. -/
theorem Counted.enter {host : Host} {depth : Nat} (h : Counted limit ⟨host, depth⟩ r) (hroom : depth < limit)
    (f : Function) : Counted limit ⟨host, depth + 1⟩ (r.enter f) where
  depth := congrArg (· + 1) h.depth
  room := by
    have hdepth : depth = r.active.length := h.depth
    simp only [Record.enter, List.length_cons]
    omega
  exact := h.exact

theorem Counted.leave {host : Host} {depth : Nat} (h : Counted limit ⟨host, depth⟩ r) :
    Counted limit ⟨host, depth - 1⟩ r.leave where
  depth := by
    have hdepth : depth = r.active.length := h.depth
    simp only [Record.leave, List.length_tail, hdepth]
  room := by
    have hroom := h.room
    simp only [Record.leave, List.length_tail]
    omega
  exact := h.exact

/-- An act that finds nothing worth a record only has to leave the count alone. -/
theorem quietly_steady {act : Act σ} (h : ∀ s, (machine (act s).2).depth = (machine s).depth) :
    Moves (Steady limit machine) (quietly act) := by
  rintro ⟨s, r⟩ hcounted
  exact ⟨⟨(h s).trans hcounted.depth, hcounted.room, hcounted.exact⟩, rfl⟩

end

/-! ### Statements -/

section

variable (program : Program) {invoke : Function → Act (Call × Record)} {limit : Nat} (fuel : Nat)

theorem call_steady (hinvoke : ∀ f, Moves (Steady limit Call.machine) (invoke f)) (name : String)
    (arguments : List Argument) : Moves (Steady limit Frame.machine) (call program invoke name arguments) := by
  rintro ⟨⟨scope, machine⟩, r⟩ hcounted
  rw [call]
  split
  · exact ⟨hcounted, rfl⟩
  · rename_i f values _
    have hcalled := hinvoke f (⟨values, machine⟩, r) hcounted
    split
    · rename_i hdone
      rw [hdone] at hcalled
      exact hcalled
    · rename_i hstopped
      rw [hstopped] at hcalled
      exact hcalled

theorem count_steady (counter : String) (first last : Expr) {body : Act (Frame × Record)}
    (hbody : Moves (Steady limit Frame.machine) body) :
    Moves (Steady limit Frame.machine) (count counter first last body) := by
  refine moves_withValue lasting_steady fun w bounds _ => ?_
  exact Moves.repeatFor lasting_steady
    (fun i => (quietly_steady fun _ => rfl).andThen lasting_steady hbody) _ _ w

-- One induction over statements, chains and blocks together.
mutual

theorem run_steady (hinvoke : ∀ f, Moves (Steady limit Call.machine) (invoke f)) :
    ∀ s : Stmt, Moves (Steady limit Frame.machine) (run program invoke fuel s)
  | .assign place target value => by
    rw [run]
    exact (quietly_steady (Frame.assign_sameDepth target value)).atLine place.line
  | .branch place chain => by
    rw [run]
    exact (runChain_steady hinvoke chain).atLine place.line
  | .count place counter first last body => by
    rw [run]
    exact (count_steady counter first last (runAll_steady hinvoke body)).atLine place.line
  | .loopWhile place condition body => by
    rw [run]
    exact ((runAll_steady hinvoke body).repeatWhile lasting_steady fuel).atLine place.line
  | .loopUntil place condition body => by
    rw [run]
    exact ((runAll_steady hinvoke body).repeatUntil lasting_steady fuel).atLine place.line
  | .call place function arguments => by
    rw [run]
    exact (call_steady program hinvoke function arguments).atLine place.line

theorem runChain_steady (hinvoke : ∀ f, Moves (Steady limit Call.machine) (invoke f)) :
    ∀ c : Chain, Moves (Steady limit Frame.machine) (runChain program invoke fuel c)
  | .last none body => by
    rw [runChain]
    exact runAll_steady hinvoke body
  | .last (some condition) body => by
    rw [runChain]
    refine moves_withValue lasting_steady fun w holds _ => ?_
    cases holds with
    | true => exact runAll_steady hinvoke body w
    | false => exact moves_skip lasting_steady w
  | .link none body _ => by
    rw [runChain]
    exact runAll_steady hinvoke body
  | .link (some condition) body next => by
    rw [runChain]
    refine moves_withValue lasting_steady fun w holds _ => ?_
    cases holds with
    | true => exact runAll_steady hinvoke body w
    | false => exact runChain_steady hinvoke next w

theorem runAll_steady (hinvoke : ∀ f, Moves (Steady limit Call.machine) (invoke f)) :
    ∀ body : List Stmt, Moves (Steady limit Frame.machine) (runAll program invoke fuel body)
  | [] => by
    rw [runAll]
    exact moves_skip lasting_steady
  | s :: rest => by
    rw [runAll]
    exact (run_steady hinvoke s).andThen lasting_steady (runAll_steady hinvoke rest)

end

end

/-! ### Functions and sessions -/

/-- The machine already counts an invocation when it becomes active, and still does when it is left. -/
theorem enter_counted {limit : Nat} {f : Function} {body : Act (Frame × Record)}
    (hbody : Moves (Steady limit Frame.machine) body) {slots : List Value} {machine : Machine} {r : Record}
    (h : Counted limit machine (r.enter f)) {outcome : Outcome} {after : Call} {left : Record}
    (hentered : enter limit f body (⟨slots, machine⟩, r) = (outcome, after, left)) :
    Counted limit ⟨after.machine.host, after.machine.depth - 1⟩ left ∧ left.active = r.active := by
  rw [enter] at hentered
  split at hentered
  · cases hentered
    exact ⟨h.leave, rfl⟩
  · rename_i scope _
    have hstarted : Counted limit machine ((r.enter f).note limit (.started f ⟨scope, machine⟩)) :=
      h.note ⟨h.room, rfl, h.depth⟩
    have hran := hbody (⟨scope, machine⟩, (r.enter f).note limit (.started f ⟨scope, machine⟩)) hstarted
    split at hentered
    · rename_i hdone
      rw [hdone] at hran
      cases hentered
      exact ⟨hran.1.leave, congrArg List.tail hran.2⟩
    · rename_i hstopped
      rw [hstopped] at hran
      cases hentered
      exact ⟨hran.1.leave, congrArg List.tail hran.2⟩

theorem nested_steady (limit : Nat) (f : Function) {body : Act (Frame × Record)}
    (hbody : Moves (Steady limit Frame.machine) body) :
    Moves (Steady limit Call.machine) (nested limit (enter limit f body)) := by
  rintro ⟨⟨slots, host, depth⟩, r⟩ hcounted
  rw [nested]
  split
  · exact ⟨hcounted, rfl⟩
  · rename_i hroom
    have hentered := Counted.enter hcounted (Nat.lt_of_not_le hroom) f
    rcases hran : enter limit f body (⟨slots, host, depth + 1⟩, r) with ⟨outcome, after, left⟩
    exact enter_counted hbody hentered hran

/-- By induction on how deep calls may nest: the statements of a body call functions with less fuel. -/
theorem invoke_steady (program : Program) (limit fuel : Nat) (f : Function) :
    Moves (Steady limit Call.machine) (invoke program limit fuel f) := by
  induction fuel generalizing f with
  | zero => exact lasting_steady.refl
  | succ fuel ih =>
    rintro ⟨⟨slots, machine⟩, r⟩ hcounted
    have hcalled := hcounted.called f slots
    unfold invoke
    split
    · exact ⟨hcalled, rfl⟩
    · cases f.body with
      | builtin b => exact quietly_steady (fun _ => rfl) (_, _) hcalled
      | user body => exact nested_steady limit f (runAll_steady program fuel ih body) (_, _) hcalled

theorem callNamed_steady (program : Program) (limit fuel : Nat) (name : String) :
    Moves (Steady limit Call.machine) (callNamed program limit fuel name) := by
  unfold callNamed
  split
  · exact lasting_steady.refl
  · exact invoke_steady program limit fuel _

theorem callAll_steady (program : Program) (limit fuel : Nat) (fs : List Function) :
    Moves (Steady limit id) (callAll program limit fuel fs) := by
  induction fs with
  | nil => exact lasting_steady.refl
  | cons f fs ih =>
    rintro ⟨machine, r⟩ hcounted
    have hcalled := invoke_steady program limit fuel f (⟨[], machine⟩, r) hcounted
    rw [callAll]
    split
    · rename_i next r' hdone
      rw [hdone] at hcalled
      obtain ⟨hrest, hactive⟩ := ih (next, r') hcalled.1
      exact ⟨hrest, hactive.trans hcalled.2⟩
    · rename_i hstopped
      rw [hstopped] at hcalled
      exact hcalled

theorem execute_steady (program : Program) (settings : Settings) (fuel : Nat) :
    Moves (Steady settings.maxDepth id) (execute program settings fuel) := by
  unfold execute
  split
  · rename_i name _
    rintro ⟨machine, r⟩ hcounted
    exact callNamed_steady program settings.maxDepth fuel name (⟨[], machine⟩, r) hcounted
  · exact callAll_steady program settings.maxDepth fuel _

/-- Between requests: no invocation is active, the count says so, and every moment so far is exact. The limit does not
matter here, and may be another one for the next request. -/
structure AtRest (s : Session) (r : Record) : Prop where
  depth : s.machine.depth = 0
  active : r.active = []
  exact : ∀ m ∈ r.moments, m.Exact

theorem AtRest.counted {s : Session} {r : Record} (h : AtRest s r) (limit : Nat) : Counted limit s.machine r where
  depth := by rw [h.depth, h.active, List.length_nil]
  room := by simp [h.active]
  exact := h.exact

theorem Counted.atRest {limit : Nat} {machine : Machine} {r : Record} (h : Counted limit machine r)
    (hactive : r.active = []) (program : Program) (settings : Settings) : AtRest ⟨program, settings, machine⟩ r where
  depth := by rw [h.depth, hactive, List.length_nil]
  active := hactive
  exact := h.exact

theorem depth_configure (s : Session) (settings : Settings) :
    (s.configure settings).machine.depth = s.machine.depth := by
  -- Not by `rfl`, which would compare the two hosts and start the random numbers for it.
  cases hseed : settings.seed <;> simp only [Session.configure, hseed]

theorem atRest_start (program : Program) (settings : Settings) (host : Host) :
    AtRest (.start program settings host) .empty where
  depth := depth_configure _ settings
  active := rfl
  exact := nofun

theorem answer_atRest {s : Session} {r : Record} (h : AtRest s r) (fuel : Nat) (request : Request) :
    AtRest (answer fuel s r request).2.1 (answer fuel s r request).2.2 := by
  cases request with
  | run =>
    have hran := execute_steady s.program s.settings fuel (s.machine, r) (h.counted _)
    exact hran.1.atRest (hran.2.trans h.active) s.program s.settings
  | call name slots =>
    have hran := callNamed_steady s.program s.settings.maxDepth fuel name (⟨slots, s.machine⟩, r) (h.counted _)
    exact hran.1.atRest (hran.2.trans h.active) s.program s.settings
  | configure settings => exact ⟨(depth_configure s settings).trans h.depth, h.active, h.exact⟩

theorem answerAll_atRest {s : Session} {r : Record} (h : AtRest s r) (fuel : Nat) (requests : List Request) :
    AtRest (answerAll fuel s r requests).2.1 (answerAll fuel s r requests).2.2 := by
  induction requests generalizing s r with
  | nil => exact h
  | cons request requests ih => exact ih (answer_atRest h fuel request)

/-- In a session, whatever is asked of it and whether it fails or not, the count of calls under way is zero when a
request comes. When a body starts, the count is the number of invocations that are active, its own among them, and
within the limit. A call of a user function with the right number of arguments fails for depth, with nothing of the
function bound or run, exactly when as many invocations are active as the limit allows; with fewer, a call fails for
depth only where its body does. -/
theorem depth_exact (program : Program) (settings : Settings) (host : Host) (fuel : Nat) (requests : List Request) :
    drop (answerAll fuel (.start program settings host) .empty requests) =
      (Session.start program settings host).answerAll fuel requests ∧
    (∀ before after, requests = before ++ after →
      ((Session.start program settings host).answerAll fuel before).2.machine.depth = 0) ∧
    (∀ limit active f frame,
      ⟨limit, active, .started f frame⟩ ∈ (answerAll fuel (.start program settings host) .empty requests).2.2.moments →
        active.head? = some f ∧ frame.machine.depth = active.length ∧ active.length ≤ limit) ∧
    ∀ limit active f call body,
      ⟨limit, active, .called f call⟩ ∈ (answerAll fuel (.start program settings host) .empty requests).2.2.moments →
        f.body = .user body → f.takes call.slots.length = true → ∀ steps,
          (f.run program limit (steps + 1) call = (.failed (.of (.tooDeep limit)), call) ↔ active.length = limit) ∧
          ∀ fault, active.length < limit → (f.run program limit (steps + 1) call).1 = .failed fault →
            fault.cause.kind = .depth → ∃ scope, f.scopeFor call.slots = .ok scope ∧
              (Stmt.executeAll program limit body steps (call.machine.entered scope)).1 = .failed fault := by
  have hstart := atRest_start program settings host
  have hexact := (answerAll_atRest hstart fuel requests).exact
  refine ⟨answerAll_follows fuel _ _ requests, ?_, ?_, ?_⟩
  · intro before _ _
    rw [← answerAll_follows fuel _ .empty before]
    exact (answerAll_atRest hstart fuel before).depth
  · intro limit active f frame hmoment
    obtain ⟨hroom, hhead, hdepth⟩ := hexact _ hmoment
    exact ⟨hhead, hdepth, hroom⟩
  · intro limit active f call body hmoment hbody htakes steps
    obtain ⟨hroom, hdepth⟩ := hexact _ hmoment
    have hdepth : call.machine.depth = active.length := hdepth
    have hroom : active.length ≤ limit := hroom
    constructor
    · rw [Function.run_tooDeep_iff hbody htakes, hdepth]
      exact ⟨fun hdeep => Nat.le_antisymm hroom hdeep, fun heq => Nat.le_of_eq heq.symm⟩
    · intro fault hfewer
      rw [← hdepth] at hfewer
      exact Function.Admits.failed_of_depth ⟨htakes, hbody, hfewer⟩

end Watched

open Watched

/-- The run fails under the first limit, the call is done under the second. -/
def Example.requests : List Request :=
  [.configure ⟨none, none, 3⟩, .run, .configure ⟨none, none, 4⟩, .call "descent" []]

/-- What is seen while they are answered. -/
def Example.moments : List Moment :=
  (answerAll 20 descending .empty requests).2.2.moments

theorem Watched.depth_exact_descent :
    (∀ before after, Example.requests = before ++ after →
      (Example.descending.answerAll 20 before).2.machine.depth = 0) ∧
    (∃ active frame, ⟨4, active, .started Example.down frame⟩ ∈ Example.moments ∧
      frame.machine.depth = active.length ∧ active.length = 4) ∧
    (∃ active call, ⟨3, active, .called Example.down call⟩ ∈ Example.moments ∧ active.length = 3 ∧
      Example.down.run Example.descending.program 3 1 call = (.failed (.of (.tooDeep 3)), call)) ∧
    ∃ active call body scope, ⟨3, active, .called Example.down call⟩ ∈ Example.moments ∧ active.length = 2 ∧
      (Example.down.run Example.descending.program 3 3 call).1 = .failed ⟨.tooDeep 3, some 3⟩ ∧
      Example.down.body = .user body ∧ Example.down.scopeFor call.slots = .ok scope ∧
      (Stmt.executeAll Example.descending.program 3 body 2 (call.machine.entered scope)).1 =
        .failed ⟨.tooDeep 3, some 3⟩ := by
  obtain ⟨-, hrest, hstarted, hcalled⟩ :=
    depth_exact ⟨[Example.down, Example.descent]⟩ .standard (.start (.ofText "") (.ofSeed 0)) 20 Example.requests
  have hbody : Example.moments[14]? = some ⟨4, _, .started Example.down _⟩ := rfl
  have hdeep : Example.moments[6]? = some ⟨3, _, .called Example.down _⟩ := rfl
  have houter : Example.moments[4]? = some ⟨3, _, .called Example.down _⟩ := rfl
  have hbody := List.mem_of_getElem? hbody
  have hdeep := List.mem_of_getElem? hdeep
  have houter := List.mem_of_getElem? houter
  obtain ⟨-, hdepth, -⟩ := hstarted _ _ _ _ hbody
  obtain ⟨hrefused, -⟩ := hcalled _ _ _ _ _ hdeep rfl rfl 0
  obtain ⟨-, hinside⟩ := hcalled _ _ _ _ _ houter rfl rfl 2
  obtain ⟨scope, hscope, hran⟩ := hinside ⟨.tooDeep 3, some 3⟩ (by decide) rfl rfl
  exact ⟨hrest, ⟨_, _, hbody, hdepth, rfl⟩, ⟨_, _, hdeep, rfl, hrefused.mpr rfl⟩,
    ⟨_, _, _, scope, houter, rfl, rfl, rfl, hscope, hran⟩⟩

end Offside
