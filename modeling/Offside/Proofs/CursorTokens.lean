import Offside.Parse.Cursor
import Offside.Proofs.Attempt

/-!
# The tokens in front of a cursor

What is read from a cursor depends on the tokens in front of it; texts and places of lexemes only go into the trees
and the errors. For each of the basic readings, one lemma says which tokens it takes when it succeeds, and one that
it succeeds when these are in front.
-/

namespace Offside.Parse

namespace Cursor

def tokens (c : Cursor) : List Token :=
  c.ahead.map Lexeme.token

end Cursor

/-- An attempt succeeds with a value that has a property, and leaves these tokens in front. -/
def Gives {α : Type} {c : Cursor} (attempt : Attempt α c) (P : α → Prop) (rest : List Token) : Prop :=
  ∃ r, attempt = .ok r ∧ P r.value ∧ r.next.tokens = rest

theorem gives_pure {α : Type} {c : Cursor} {r : Reading α c} {P : α → Prop} {rest : List Token} (hvalue : P r.value)
    (hrest : r.next.tokens = rest) : Gives (pure r) P rest :=
  ⟨r, rfl, hvalue, hrest⟩

/-- A reading goes on behind another. -/
theorem Gives.bind {α β : Type} {c d : Cursor} {attempt : Attempt α d} {next : Reading α d → Attempt β c}
    {P : α → Prop} {Q : β → Prop} {between rest : List Token} (h : Gives attempt P between)
    (hnext : ∀ r : Reading α d, P r.value → r.next.tokens = between → Gives (next r) Q rest) :
    Gives (attempt >>= next) Q rest := by
  obtain ⟨r, hr, hvalue, htokens⟩ := h
  rw [hr]
  exact hnext r hvalue htokens

namespace Cursor

variable {c : Cursor} {t : Token} {ts : List Token} {what : Expected}

theorem ahead_of_next? {r : Reading Lexeme c} (h : c.next? = some r) : c.ahead = r.value :: r.next.ahead := by
  unfold next? at h
  split at h
  · cases h
  · rename_i l rest hahead
    cases h
    exact hahead

theorem tokens_of_next? {r : Reading Lexeme c} (h : c.next? = some r) : c.tokens = r.value.token :: r.next.tokens :=
  congrArg (List.map Lexeme.token) (ahead_of_next? h)

theorem next?_of_tokens (h : c.tokens = t :: ts) :
    ∃ r, c.next? = some r ∧ r.value.token = t ∧ r.next.tokens = ts := by
  cases hnext : c.next? with
  | none =>
    unfold next? at hnext
    split at hnext
    · rename_i hahead
      rw [tokens, hahead] at h
      cases h
    · cases hnext
  | some r =>
    have hr := tokens_of_next? hnext
    rw [h, List.cons.injEq] at hr
    exact ⟨r, rfl, hr.1.symm, hr.2.symm⟩

theorem next?_of_eat? {r : Reading Lexeme c} (h : c.eat? t = some r) : c.next? = some r ∧ r.value.token = t := by
  unfold eat? at h
  split at h
  · rename_i s hnext
    split at h
    · rename_i htoken
      cases h
      exact ⟨hnext, htoken⟩
    · cases h
  · cases h

theorem token_ne_of_eat? {r : Reading Lexeme c} (h : c.eat? t = none) (hr : c.next? = some r) : r.value.token ≠ t := by
  intro htoken
  rw [eat?, hr] at h
  dsimp only at h
  rw [if_pos htoken] at h
  cases h

theorem ahead_of_eat? {r : Reading Lexeme c} (h : c.eat? t = some r) :
    c.ahead = r.value :: r.next.ahead ∧ r.value.token = t :=
  ⟨ahead_of_next? (next?_of_eat? h).1, (next?_of_eat? h).2⟩

theorem tokens_of_eat? {r : Reading Lexeme c} (h : c.eat? t = some r) : c.tokens = t :: r.next.tokens := by
  obtain ⟨hahead, htoken⟩ := ahead_of_eat? h
  rw [tokens, hahead, List.map_cons, htoken]
  rfl

theorem eat?_of_tokens (h : c.tokens = t :: ts) : ∃ r, c.eat? t = some r ∧ r.next.tokens = ts := by
  obtain ⟨r, hr, ht, hts⟩ := next?_of_tokens h
  refine ⟨r, ?_, hts⟩
  rw [eat?, hr]
  exact if_pos ht

theorem eat?_eq_none_iff : c.eat? t = none ↔ c.tokens.head? ≠ some t := by
  constructor
  · intro h hhead
    obtain ⟨rest, hrest⟩ := List.head?_eq_some_iff.mp hhead
    obtain ⟨r, hr, -⟩ := eat?_of_tokens hrest
    cases h.symm.trans hr
  · intro h
    cases heat : c.eat? t with
    | none => rfl
    | some r =>
      rw [tokens_of_eat? heat] at h
      exact absurd rfl h

theorem eat?_of_expect {r : Reading Lexeme c} (h : c.expect t what = .ok r) : c.eat? t = some r := by
  unfold expect at h
  split at h
  · rename_i s heat
    cases h
    exact heat
  · cases h

theorem tokens_of_expect {r : Reading Lexeme c} (h : c.expect t what = .ok r) : c.tokens = t :: r.next.tokens :=
  tokens_of_eat? (eat?_of_expect h)

theorem gives_expect (h : c.tokens = t :: ts) : Gives (c.expect t what) (fun _ => True) ts := by
  obtain ⟨r, hr, hts⟩ := eat?_of_tokens h
  exact ⟨r, by rw [expect, hr], trivial, hts⟩

theorem ahead_of_expectName {r : Reading (String × Lexeme) c} (h : c.expectName what = .ok r) :
    c.ahead = r.value.2 :: r.next.ahead ∧ r.value.2.token = .name r.value.1 := by
  unfold expectName at h
  split at h
  · cases h
  · rename_i s hnext
    split at h
    · rename_i name hname
      cases h
      exact ⟨ahead_of_next? hnext, hname⟩
    · cases h
    · cases h

theorem tokens_of_expectName {r : Reading (String × Lexeme) c} (h : c.expectName what = .ok r) :
    c.tokens = .name r.value.1 :: r.next.tokens := by
  obtain ⟨hahead, htoken⟩ := ahead_of_expectName h
  rw [tokens, hahead, List.map_cons, htoken]
  rfl

theorem gives_expectName {name : String} (h : c.tokens = .name name :: ts) :
    Gives (c.expectName what) (fun n => n.1 = name) ts := by
  obtain ⟨r, hr, ht, hts⟩ := next?_of_tokens h
  refine ⟨r.map fun l => (name, l), ?_, rfl, hts⟩
  rw [expectName, hr]
  simp only [ht]

theorem isEmpty_ahead : c.ahead.isEmpty = c.tokens.isEmpty := by
  simp [tokens]

/-! Readings are followed by their tokens; the lexemes behind the tokens come back from where the readings stop. -/

/-- Two cursors on one list are at the same place if the same number of tokens is in front of them. -/
theorem Passes.ahead_eq {d : Cursor} (h : c.Passes d) {ls rest : List Lexeme} (hc : c.ahead = ls ++ rest)
    (hd : d.tokens = rest.map Lexeme.token) : d.ahead = rest := by
  obtain ⟨front, l, hahead, -⟩ := h
  have hlength : d.ahead.length = rest.length := by
    simpa [tokens] using congrArg List.length hd
  have hsplit : (front ++ [l]) ++ d.ahead = ls ++ rest := by
    rw [← hc, hahead]
    simp
  exact (List.append_inj' hsplit hlength).2

/-- The lexemes with the tokens that a reading has taken. -/
theorem Passes.lexemes {d : Cursor} (h : c.Passes d) (hc : c.tokens = ts ++ d.tokens) :
    ∃ ls, c.ahead = ls ++ d.ahead ∧ ls.map Lexeme.token = ts := by
  obtain ⟨front, l, hahead, -⟩ := h
  refine ⟨front ++ [l], by rw [hahead]; simp, ?_⟩
  have htokens : (front ++ [l]).map Lexeme.token ++ d.tokens = ts ++ d.tokens := by
    rw [← hc, tokens, tokens, hahead]
    simp
  exact List.append_cancel_right htokens

end Cursor

end Offside.Parse
