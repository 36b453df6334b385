import Offside.Host.Builtin
import Offside.Proofs.InputWords

/-!
# Words in order

Built-in functions follow one another on a host, whatever each of them ends in. Reads are handed the words of the input
in order, each word once: a word that is refused is gone, and no other function takes one. What is between two reads,
lines begun and lines not begun, stands for the words that are left. So it makes no difference whether slots are filled
by one read or by two.
-/

namespace Offside

/-! ### What a read is handed -/

/-- Words are read into slots, one for each, with these values. -/
structure Converts (slots : List Value) (words : List String) (values : List Value) : Prop where
  length_eq : words.length = slots.length
  values_eq : List.zipWith Value.readAs slots words = values.map Except.ok

/-- How a read of slots ends, with which values in them, and the words that it is handed of those that are left. -/
inductive Handed (words : List String) (slots : List Value) :
    Except Cause Unit → List Value → List String → Prop where
  /-- There is a word for each slot. -/
  | filled {taken behind : List String} {values : List Value} (hwords : words = taken ++ behind)
      (h : Converts slots taken values) : Handed words slots (.ok ()) values taken
  /-- A slot refuses its word, which is the last one handed out. -/
  | refused {front rest : List Value} {slot : Value} {taken behind : List String} {word : String} {values : List Value}
      {cause : Cause} (hslots : slots = front ++ slot :: rest) (hwords : words = taken ++ word :: behind)
      (h : Converts front taken values) (hcause : slot.readAs word = .error cause) :
      Handed words slots (.error cause) (values ++ slot :: rest) (taken ++ [word])
  /-- There is no word for a slot. -/
  | atEnd {front rest : List Value} {slot : Value} {values : List Value} (hslots : slots = front ++ slot :: rest)
      (h : Converts front words values) : Handed words slots (.error .endOfInput) (values ++ slot :: rest) words

theorem converts_nil : Converts [] [] [] :=
  ⟨rfl, rfl⟩

section

variable {slot v : Value} {slots values : List Value} {word : String} {words taken : List String}
  {ended : Except Cause Unit}

theorem Converts.cons (h : Converts slots words values) (hv : slot.readAs word = .ok v) :
    Converts (slot :: slots) (word :: words) (v :: values) :=
  ⟨by simp [h.length_eq], by simp [h.values_eq, hv]⟩

theorem Converts.readAs (h : Converts slots words values) {i : Nat} (hslot : slots[i]? = some slot)
    (hword : words[i]? = some word) : ∃ v, slot.readAs word = .ok v := by
  have hi : (values.map Except.ok)[i]? = some (slot.readAs word) := by
    rw [← h.values_eq, List.getElem?_zipWith, hslot, hword]
  rw [List.getElem?_map] at hi
  obtain ⟨v, -, hv⟩ := Option.map_eq_some_iff.mp hi
  exact ⟨v, hv.symm⟩

theorem Handed.cons (h : Handed words slots ended values taken) (hv : slot.readAs word = .ok v) :
    Handed (word :: words) (slot :: slots) ended (v :: values) (word :: taken) := by
  cases h with
  | filled hwords h => exact .filled (by rw [hwords]; rfl) (h.cons hv)
  | refused hslots hwords h hcause =>
    exact .refused (by rw [hslots]; rfl) (by rw [hwords]; rfl) (h.cons hv) hcause
  | atEnd hslots h => exact .atEnd (by rw [hslots]; rfl) (h.cons hv)

/-- No text is refused for want of input. -/
theorem Value.readAs_ne_endOfInput (slot : Value) (text : String) : slot.readAs text ≠ .error .endOfInput := by
  unfold readAs
  cases slot with
  | string | array => simp
  | _ => dsimp only; split <;> simp

/-- A read comes to the end of the input exactly if all words are taken and there is a slot behind them. -/
theorem Handed.endOfInput_iff (h : Handed words slots ended values taken) : ended = .error .endOfInput ↔
    ∃ front slot rest values, slots = front ++ slot :: rest ∧ Converts front words values := by
  constructor
  · intro hended
    cases h with
    | filled => cases hended
    | refused hslots hwords h hcause =>
      cases hended
      exact absurd hcause (Value.readAs_ne_endOfInput _ _)
    | atEnd hslots h => exact ⟨_, _, _, _, hslots, h⟩
  · rintro ⟨front, slot, rest, filled, rfl, hfront⟩
    cases h with
    | filled hwords h =>
      have hlength := h.length_eq
      have hfront := hfront.length_eq
      rw [hwords] at hfront
      simp only [List.length_append, List.length_cons] at hlength hfront
      omega
    | @refused before _ refuser taken behind word _ _ hslots hwords h hcause =>
      -- The word that is refused would have been read.
      have hlength := hfront.length_eq
      have htaken := h.length_eq
      have hword : words[taken.length]? = some word := by simp [hwords]
      have hrefuser : (front ++ slot :: rest)[taken.length]? = some refuser := by simp [hslots, htaken]
      have hinside : taken.length < front.length := by
        rw [hwords] at hlength
        simp only [List.length_append, List.length_cons] at hlength
        omega
      rw [List.getElem?_append_left hinside] at hrefuser
      obtain ⟨v, hv⟩ := hfront.readAs hrefuser hword
      cases hcause.symm.trans hv
    | atEnd => rfl

end

/-! ### One read -/

namespace Host

variable {host : Host}

theorem nextWord_nil (h : host.input.IsLegible) (hwords : host.input.words = []) :
    host.nextWord = (.error .endOfInput, { host with input := ⟨[], []⟩ }) := by
  obtain ⟨input, output, random, writes, writeFault, flushFault⟩ := host
  rw [nextWord, Input.next_nil h hwords]

theorem nextWord_cons {word : String} {rest : List String} (h : host.input.IsLegible)
    (hwords : host.input.words = word :: rest) : ∃ behind : Input,
      host.nextWord = (.ok word, { host with input := behind }) ∧ behind.IsLegible ∧ behind.words = rest := by
  obtain ⟨behind, hnext, hbehind⟩ := Input.next_cons h hwords
  obtain ⟨input, output, random, writes, writeFault, flushFault⟩ := host
  refine ⟨behind, ?_, hbehind⟩
  rw [nextWord, hnext]

theorem input_writeLine (host : Host) (line : String) : (host.writeLine line).2.input = host.input := by
  unfold writeLine
  split <;> rfl

end Host

namespace Builtin

/-- A read takes words from the front of those that are left, and leaves the rest. -/
theorem fill_handed (slots : List Value) {host : Host} (h : host.input.IsLegible) :
    ∃ (ended : Except Cause Unit) (values : List Value) (behind : Input) (taken : List String),
      fill slots host = (ended, values, { host with input := behind }) ∧ behind.IsLegible ∧
      host.input.words = taken ++ behind.words ∧ Handed host.input.words slots ended values taken ∧
      (ended = .error .endOfInput → behind = ⟨[], []⟩) := by
  induction slots generalizing host with
  | nil => exact ⟨_, _, host.input, [], rfl, h, rfl, .filled (List.nil_append _).symm converts_nil, nofun⟩
  | cons slot slots ih =>
    rw [fill]
    cases hwords : host.input.words with
    | nil =>
      rw [Host.nextWord_nil h hwords]
      refine ⟨_, _, ⟨[], []⟩, [], rfl, by simp [Input.IsLegible], rfl, ?_, fun _ => rfl⟩
      exact .atEnd (List.nil_append (slot :: slots)).symm converts_nil
    | cons word rest =>
      obtain ⟨next, hnext, hlegible, hrest⟩ := Host.nextWord_cons h hwords
      simp only [hnext]
      cases hread : slot.readAs word with
      | error cause =>
        have hother : cause ≠ .endOfInput := by
          rintro rfl
          exact slot.readAs_ne_endOfInput word hread
        refine ⟨_, _, next, [word], rfl, hlegible, by rw [hrest]; rfl, ?_, fun hended => ?_⟩
        · exact .refused (List.nil_append (slot :: slots)).symm (List.nil_append (word :: rest)).symm converts_nil hread
        · cases hended
          exact absurd rfl hother
      | ok v =>
        have hlegible : { host with input := next }.input.IsLegible := hlegible
        obtain ⟨ended, values, behind, taken, hfill, hbehind, hleft, hhanded, hend⟩ := ih hlegible
        have hleft : next.words = taken ++ behind.words := hleft
        simp only [hfill]
        refine ⟨ended, v :: values, behind, word :: taken, rfl, hbehind, ?_, ?_, hend⟩
        · rw [← hrest, hleft]
          rfl
        · rw [← hrest]
          exact hhanded.cons hread

/-- A read of slots in two parts goes on with the second part if the first is filled. -/
theorem fill_append (first second : List Value) (host : Host) : fill (first ++ second) host =
    match fill first host with
    | (.error cause, values, mid) => (.error cause, values ++ second, mid)
    | (.ok (), values, mid) =>
      match fill second mid with
      | (ended, more, behind) => (ended, values ++ more, behind) := by
  induction first generalizing host with
  | nil => rfl
  | cons slot first ih =>
    rw [List.cons_append, fill, fill]
    rcases host.nextWord with ⟨_ | word, next⟩
    · rfl
    · dsimp only
      cases slot.readAs word with
      | error cause => rfl
      | ok v =>
        simp only [ih]
        rcases fill first next with ⟨_ | _, values, mid⟩ <;> rfl

/-- At the end of the input a read changes nothing. -/
theorem fill_exhausted (slots : List Value) {host : Host} (h : host.input = ⟨[], []⟩) :
    (fill slots host).2 = (slots, host) := by
  cases slots with
  | nil => rfl
  | cons slot slots =>
    have hlegible : host.input.IsLegible := by simp [h, Input.IsLegible]
    have hwords : host.input.words = [] := by simp [h, Input.words]
    rw [fill, Host.nextWord_nil hlegible hwords, ← h]

/-- Two reads against one of all their slots. The one ends like the first of the two that is not done. The slots and the
host are the same in the end, unless the first read refuses a word: then the second would go on behind that word. -/
theorem fill_two {first second values values' all : List Value} {host mid behind left : Host}
    {ended ended' endedAll : Except Cause Unit} (h : host.input.IsLegible)
    (hfirst : fill first host = (ended, values, mid)) (hsecond : fill second mid = (ended', values', behind))
    (hall : fill (first ++ second) host = (endedAll, all, left)) :
    (ended = .ok () ∨ ended = .error .endOfInput → all = values ++ values' ∧ left = behind) ∧
      (ended = .ok () → endedAll = ended') ∧ (ended ≠ .ok () → endedAll = ended) := by
  rw [fill_append, hfirst] at hall
  cases ended with
  | ok =>
    simp only [hsecond] at hall
    cases hall
    exact ⟨fun _ => ⟨rfl, rfl⟩, fun _ => rfl, fun hnot => absurd rfl hnot⟩
  | error cause =>
    cases hall
    refine ⟨?_, nofun, fun _ => rfl⟩
    rintro (⟨⟨⟩⟩ | ⟨⟨⟩⟩)
    obtain ⟨_, _, next, _, hfill, -, -, -, hend⟩ := fill_handed first h
    cases hfirst.symm.trans hfill
    have hnext : { host with input := next }.input = ⟨[], []⟩ := hend rfl
    have hsame := fill_exhausted second hnext
    rw [hsecond] at hsame
    cases hsame
    exact ⟨rfl, rfl⟩

/-- Only reads take words. -/
theorem input_perform {b : Builtin} (hb : b ≠ .read) (slots : List Value) (host : Host) :
    (b.perform slots host).2.2.input = host.input := by
  obtain ⟨input, output, random, writes, writeFault, flushFault⟩ := host
  cases b with
  | read => exact absurd rfl hb
  | write => exact Host.input_writeLine _ _
  | getRandom => rfl
  | _ =>
    rw [perform]
    · split <;> rfl
    all_goals simp

end Builtin

/-! ### Functions in turn -/

/-- What a built-in function is handed of the words that are left: only a read is handed any. -/
structure Serves (words : List String) (call : Builtin × List Value) (result : Except Cause Unit × List Value)
    (taken : List String) : Prop where
  read : call.1 = .read → Handed words call.2 result.1 result.2 taken
  other : call.1 ≠ .read → taken = []

namespace Host

/-- The ends of built-in functions that follow one another on a host, with their slots, whatever each ends in. -/
def performAll (host : Host) : List (Builtin × List Value) → List (Except Cause Unit × List Value) × Host
  | [] => ([], host)
  | (b, slots) :: calls =>
    match b.perform slots host with
    | (ended, slots, host) =>
      match host.performAll calls with
      | (results, host) => ((ended, slots) :: results, host)

variable {host : Host}

theorem serves_perform (b : Builtin) (slots : List Value) (h : host.input.IsLegible) :
    ∃ (ended : Except Cause Unit) (values : List Value) (behind : Host) (taken : List String),
      b.perform slots host = (ended, values, behind) ∧ behind.input.IsLegible ∧
      host.input.words = taken ++ behind.input.words ∧ Serves host.input.words (b, slots) (ended, values) taken := by
  by_cases hb : b = .read
  · subst hb
    obtain ⟨ended, values, behind, taken, hfill, hlegible, hwords, hhanded, -⟩ := Builtin.fill_handed slots h
    exact ⟨ended, values, _, taken, hfill, hlegible, hwords, fun _ => hhanded, fun hnot => absurd rfl hnot⟩
  · have hinput := Builtin.input_perform hb slots host
    rcases hperform : b.perform slots host with ⟨ended, values, behind⟩
    rw [hperform] at hinput
    have hinput : behind.input = host.input := hinput
    exact ⟨ended, values, behind, [], rfl, by rwa [hinput], by rw [hinput]; rfl, fun hread => absurd hread hb,
      fun _ => rfl⟩

/-- What is handed out in turn, put together, is the front of the words that were there, and the host stands for the
rest. -/
theorem serves_performAll (calls : List (Builtin × List Value)) (h : host.input.IsLegible) :
    ∃ (results : List (Except Cause Unit × List Value)) (behind : Host) (taken : List (List String)),
      host.performAll calls = (results, behind) ∧ behind.input.IsLegible ∧ results.length = calls.length ∧
      taken.length = calls.length ∧ host.input.words = taken.flatten ++ behind.input.words ∧
      ∀ (i : Nat) (call : Builtin × List Value) (result : Except Cause Unit × List Value) (words : List String),
        calls[i]? = some call → results[i]? = some result → taken[i]? = some words →
          Serves (host.input.words.drop (taken.take i).flatten.length) call result words := by
  induction calls generalizing host with
  | nil => exact ⟨[], host, [], rfl, h, rfl, rfl, rfl, fun i _ _ _ hcall => by simp at hcall⟩
  | cons call calls ih =>
    obtain ⟨b, slots⟩ := call
    obtain ⟨ended, values, next, first, hperform, hnext, hwords, hserves⟩ := serves_perform b slots h
    obtain ⟨results, behind, taken, hall, hbehind, hresults, htaken, hrest, hserved⟩ := ih hnext
    refine ⟨(ended, values) :: results, behind, first :: taken, ?_, hbehind, by simp [hresults], by simp [htaken],
      ?_, ?_⟩
    · simp only [performAll, hperform, hall]
    · rw [hwords, hrest, List.flatten_cons, List.append_assoc]
    · intro i call result words hcall hresult hword
      cases i with
      | zero =>
        cases hcall
        cases hresult
        cases hword
        exact hserves
      | succ i =>
        have hdrop : host.input.words.drop ((first :: taken).take (i + 1)).flatten.length =
            next.input.words.drop (taken.take i).flatten.length := by
          rw [List.take_succ_cons, List.flatten_cons, List.length_append, ← List.drop_drop, hwords, List.drop_left]
        rw [hdrop]
        exact hserved i call result words hcall hresult hword

/-- Reads deliver the words of a text in order and each of them once, whatever other functions are called in between and
whatever each call ends in. A read fails for want of input exactly if there is a slot behind the last word. Two reads
leave the same slots and the same host as one of all their slots, as long as no word is refused. -/
theorem words_in_order (text : String) (host : Host)
    (hinput : host.input = .ofText text ∨ host.input = .ofBytes text.toUTF8.data.toList)
    (calls : List (Builtin × List Value)) :
    ∃ (results : List (Except Cause Unit × List Value)) (reached : Host) (taken : List (List String)),
      host.performAll calls = (results, reached) ∧ results.length = calls.length ∧ taken.length = calls.length ∧
      Text.words text = taken.flatten ++ reached.input.words ∧
      (∀ (i : Nat) (call : Builtin × List Value) (result : Except Cause Unit × List Value) (words : List String),
        calls[i]? = some call → results[i]? = some result → taken[i]? = some words →
          Serves ((Text.words text).drop (taken.take i).flatten.length) call result words ∧
          (call.1 = .read → (result.1 = .error .endOfInput ↔ ∃ front slot rest values, call.2 = front ++ slot :: rest ∧
            Converts front ((Text.words text).drop (taken.take i).flatten.length) values))) ∧
      ∀ (first second values values' all : List Value) (ended ended' endedAll : Except Cause Unit)
        (mid behind left : Host), Builtin.read.perform first reached = (ended, values, mid) →
          Builtin.read.perform second mid = (ended', values', behind) →
          Builtin.read.perform (first ++ second) reached = (endedAll, all, left) →
          (ended = .ok () ∨ ended = .error .endOfInput → all = values ++ values' ∧ left = behind) ∧
            (ended = .ok () → endedAll = ended') ∧ (ended ≠ .ok () → endedAll = ended) := by
  have hinput : host.input = .ofText text := by
    rw [Input.ofBytes_toUTF8, or_self] at hinput
    exact hinput
  have hlegible : host.input.IsLegible := hinput ▸ Input.isLegible_ofText text
  have htext : host.input.words = Text.words text := by rw [hinput, Input.words_ofText]
  obtain ⟨results, reached, taken, hall, hreached, hresults, htaken, hwords, hserved⟩ :=
    serves_performAll calls hlegible
  rw [htext] at hwords hserved
  refine ⟨results, reached, taken, hall, hresults, htaken, hwords, ?_, ?_⟩
  · intro i call result words hcall hresult hword
    have hserves := hserved i call result words hcall hresult hword
    exact ⟨hserves, fun hread => (hserves.read hread).endOfInput_iff⟩
  · intro first second values values' all ended ended' endedAll mid behind left hfirst hsecond hone
    exact Builtin.fill_two hreached hfirst hsecond hone

end Host

namespace Example

/-- Four words, with an empty line, a blank that is no space, and no line end behind them. -/
def fourWords : String :=
  "12 x\n\n\t7\u2003é"

/-- The second read refuses its word, and the last one is two slots short. -/
def fourReads : List (Builtin × List Value) :=
  [(.read, [.integer 0]), (.write, [.integer 5]), (.read, [.integer 0, .integer 1]),
    (.read, [.integer 0, .string "", .string "", .boolean true])]

def fourHost : Host :=
  .start (.ofText fourWords) (.ofSeed 0)

/-- Which calls are done, and the texts of their slots. -/
def outline (results : List (Except Cause Unit × List Value)) : List (Bool × List String) :=
  results.map fun result => (result.1.isOk, result.2.map Value.text)

end Example

theorem Host.words_in_order_four : ∃ (results : List (Except Cause Unit × List Value)) (reached : Host)
    (taken : List (List String)), Example.fourHost.performAll Example.fourReads = (results, reached) ∧
      Example.outline results = [(true, ["12"]), (true, ["5"]), (false, ["0", "1"]), (false, ["7", "é", "", "true"])] ∧
      taken.length = 4 ∧ taken.flatten = ["12", "x", "7", "é"] ∧
      ∀ words, taken[1]? = some words → words = [] := by
  obtain ⟨results, reached, taken, hall, hresults, htaken, hwords, hserved, -⟩ :=
    Host.words_in_order Example.fourWords Example.fourHost (.inl rfl) Example.fourReads
  have hview : (Example.outline (Example.fourHost.performAll Example.fourReads).1,
      (Example.fourHost.performAll Example.fourReads).2.input.words, Text.words Example.fourWords) =
      ([(true, ["12"]), (true, ["5"]), (false, ["0", "1"]), (false, ["7", "é", "", "true"])], [],
        ["12", "x", "7", "é"]) := by decide +kernel
  rw [hall] at hview
  obtain ⟨houtline, hleft, htext⟩ : Example.outline results = _ ∧ reached.input.words = [] ∧
      Text.words Example.fourWords = _ := by simpa using hview
  rw [hleft, htext, List.append_nil] at hwords
  refine ⟨results, reached, taken, hall, houtline, htaken, hwords.symm, fun words hword => ?_⟩
  have hresult : results[1]? = some _ := List.getElem?_eq_getElem (by rw [hresults]; decide)
  exact (hserved 1 _ _ words rfl hresult hword).1.other (by simp)

end Offside
