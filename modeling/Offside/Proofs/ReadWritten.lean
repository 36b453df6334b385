import Offside.Proofs.Failures
import Offside.Proofs.InputWords
import Offside.Proofs.NumberText
import Offside.Proofs.Requests

/-!
# What is written can be read

Values that are one word each come back from the lines that they are written to, however they are grouped into lines
and however they are grouped into requests when they are read. The lines are only a detour: all that counts on both
sides is the list of words.
-/

namespace Offside

/-! ### Values and their words -/

theorem Text.trim_of_isWord {text : String} (h : IsWord text) : trim text = text := by
  have hdrop : ∀ cs : List Char, (∀ c ∈ cs, isBlank c = false) → cs.dropWhile isBlank = cs := by
    intro cs hcs
    cases cs with
    | nil => rfl
    | cons c cs => rw [List.dropWhile_cons_of_neg (by simp [hcs c List.mem_cons_self])]
  have hreverse : ∀ c ∈ text.toList.reverse, isBlank c = false := fun c hc => h.2 c (List.mem_reverse.mp hc)
  rw [trim, hdrop _ h.2, hdrop _ hreverse, List.reverse_reverse, String.ofList_toList]

namespace Decimal

/-- A whole number is written as its digits, behind a minus sign if it is negative. -/
theorem toList_toString_int (n : Int) :
    (toString n).toList = (if n < 0 then ['-'] else []) ++ Nat.toDigits 10 n.natAbs := by
  cases n with
  | ofNat k =>
    have htext : toString (Int.ofNat k) = toString k := rfl
    have hsign : ¬ Int.ofNat k < 0 := Int.not_lt.mpr (Int.natCast_nonneg k)
    rw [htext, toList_toString, if_neg hsign]
    rfl
  | negSucc k =>
    have htext : toString (Int.negSucc k) = "-" ++ toString (k + 1) := rfl
    rw [htext, String.toList_append, toList_toString, if_pos (Int.negSucc_lt_zero k)]
    rfl

theorem splitSign_of_isDigits {cs : List Char} (h : IsDigits cs) : splitSign cs = (false, cs) := by
  unfold splitSign
  split
  · exact absurd (h.2 '-' List.mem_cons_self) (by decide)
  · exact absurd (h.2 '+' List.mem_cons_self) (by decide)
  · rfl

theorem readInt?_toString (n : Int) : readInt? (toString n) = some n := by
  have hdigits := isDigits_toDigits n.natAbs
  have hvalue := digitsValue_toDigits n.natAbs
  have hall : Nat.toDigits 10 n.natAbs ≠ [] ∧ (Nat.toDigits 10 n.natAbs).all Char.isDigit = true :=
    ⟨hdigits.1, List.all_eq_true.mpr fun c hc => hdigits.2 c hc⟩
  rw [readInt?, toList_toString_int]
  by_cases hneg : n < 0
  · rw [if_pos hneg]
    have hsign : splitSign (['-'] ++ Nat.toDigits 10 n.natAbs) = (true, Nat.toDigits 10 n.natAbs) := rfl
    simp only [hsign, if_pos hall, hvalue, if_true, Option.some.injEq]
    omega
  · rw [if_neg hneg, List.nil_append]
    simp only [splitSign_of_isDigits hdigits, if_pos hall, hvalue, Bool.false_eq_true, if_false, Option.some.injEq]
    omega

theorem readInteger?_toString (n : Int32) : readInteger? (toString n.toInt) = some n := by
  rw [readInteger?, readInt?_toString]
  have hfits : Int32.minValue.toInt ≤ n.toInt ∧ n.toInt ≤ Int32.maxValue.toInt :=
    ⟨n.minValue_le_toInt, n.toInt_le⟩
  simp only [if_pos hfits, Int32.ofInt_toInt]

theorem isBlank_of_isDigit {c : Char} (h : c.isDigit = true) : Text.isBlank c = false := by
  have hrange : 48 ≤ c.toNat ∧ c.toNat ≤ 57 := by
    simpa [Char.isDigit, UInt32.le_iff_toNat_le] using h
  refine List.any_eq_false.mpr fun range hmem => ?_
  have hfar : range.2 < 48 ∨ 57 < range.1 := by
    revert range
    decide
  simp only [Bool.and_eq_true, decide_eq_true_eq]
  omega

theorem isWord_toString (n : Int) : Text.IsWord (toString n) := by
  have hdigits := isDigits_toDigits n.natAbs
  have hchars := toList_toString_int n
  refine ⟨fun hempty => hdigits.1 ?_, fun c hc => ?_⟩
  · rw [hempty] at hchars
    exact (List.append_eq_nil_iff.mp hchars.symm).2
  · rw [hchars, List.mem_append] at hc
    rcases hc with hsign | hdigit
    · split at hsign
      · rw [List.mem_singleton.mp hsign]
        decide
      · cases hsign
    · exact isBlank_of_isDigit (hdigits.2 c hdigit)

end Decimal

namespace Value

/-- A value that is one word when it is written. -/
def IsReadable : Value → Prop
  | integer _ | boolean _ => True
  | character c => Text.isBlank c = false
  | string s => Text.IsWord s
  | real _ | array _ => False

theorem isWord_text {v : Value} (h : v.IsReadable) : Text.IsWord v.text := by
  cases v with
  | integer n => exact Decimal.isWord_toString n.toInt
  | boolean b => cases b <;> decide
  | character c =>
    have hc : Text.isBlank c = false := h
    exact ⟨by simp [text], by simpa [text] using hc⟩
  | string s => exact h
  | real x => cases h
  | array cells => cases h

/-- The text of a value is read as the value, into any slot of its type. -/
theorem readAs_text {slot v : Value} (htype : slot.type = v.type) (h : v.IsReadable) : slot.readAs v.text = .ok v := by
  unfold readAs
  rw [Text.trim_of_isWord (isWord_text h)]
  cases v with
  | integer n =>
    cases slot <;> cases htype
    simp only [text, Decimal.readInteger?_toString, Option.map_some]
  | boolean b =>
    cases slot <;> cases htype
    cases b <;> rfl
  | character c =>
    cases slot <;> cases htype
    have hread : readCharacter? (String.singleton c) = some c := by simp [readCharacter?]
    simp only [text, hread, Option.map_some]
  | string s =>
    cases slot <;> cases htype
    rfl
  | real x => cases h
  | array cells => cases h

end Value

/-! ### Lines and words -/

namespace Builtin

/-- The words of the lines that groups of values are written to are the texts of the values. -/
theorem words_rows {groups : List (List Value)} (h : ∀ v ∈ groups.flatten, v.IsReadable) :
    Text.words (Stmt.joinRows (groups.map row)) = groups.flatten.map Value.text := by
  induction groups with
  | nil => rfl
  | cons group groups ih =>
    rw [List.flatten_cons, List.forall_mem_append] at h
    have hgroup : ∀ text ∈ group.map Value.text, Text.IsWord text :=
      List.forall_mem_map.mpr fun v hv => Value.isWord_text (h.1 v hv)
    have hrows : Stmt.joinRows ((group :: groups).map row) =
        row group ++ "\n" ++ Stmt.joinRows (groups.map row) := by
      simp [Stmt.joinRows]
    rw [hrows, Text.words_append_blank rfl (by decide), ih h.2, row, Text.words_intercalate hgroup, List.flatten_cons,
      List.map_append]

/-- Slots are filled with the values whose texts are the next words. -/
theorem fill_texts {slots values : List Value} {rest : List String}
    (htypes : slots.map Value.type = values.map Value.type) (hreadable : ∀ v ∈ values, v.IsReadable) {host : Host}
    (hlegible : host.input.IsLegible) (hwords : host.input.words = values.map Value.text ++ rest) :
    ∃ behind : Input, fill slots host = (.ok (), values, { host with input := behind }) ∧ behind.IsLegible ∧
      behind.words = rest := by
  induction slots generalizing values host with
  | nil =>
    obtain rfl : values = [] := by simpa using htypes.symm
    exact ⟨host.input, rfl, hlegible, hwords⟩
  | cons slot slots ih =>
    cases values with
    | nil => cases htypes
    | cons value values =>
      obtain ⟨htype, htypes⟩ := List.cons.inj htypes
      obtain ⟨hvalue, hreadable⟩ := List.forall_mem_cons.mp hreadable
      obtain ⟨next, hnext, hlegible', hwords'⟩ := Input.next_cons hlegible hwords
      obtain ⟨input, output, random, writes, writeFault, flushFault⟩ := host
      have hlegible' : (Host.mk next output random writes writeFault flushFault).input.IsLegible := hlegible'
      obtain ⟨behind, hfill, hbehind⟩ := ih htypes hreadable hlegible' hwords'
      have hword : Host.nextWord ⟨input, output, random, writes, writeFault, flushFault⟩ =
          (.ok value.text, ⟨next, output, random, writes, writeFault, flushFault⟩) := by
        rw [Host.nextWord, hnext]
      refine ⟨behind, ?_, hbehind⟩
      rw [fill, hword]
      simp only [Value.readAs_text htype hvalue, hfill]

theorem fill_at_end {slot : Value} {host : Host} (hlegible : host.input.IsLegible) (hwords : host.input.words = []) :
    fill [slot] host = (.error .endOfInput, [slot], { host with input := ⟨[], []⟩ }) := by
  obtain ⟨input, output, random, writes, writeFault, flushFault⟩ := host
  rw [fill, Host.nextWord, Input.next_nil hlegible hwords]

end Builtin

theorem Host.writeLine_of_works {host : Host} (h : host.fault? 0 = none) (line : String) : host.writeLine line =
    (.ok (), { host with output := host.output ++ line ++ "\n", writes := host.writes.tail }) := by
  simp only [writeLine, h]

/-! ### Sessions -/

namespace Session

/-- A call by the name of a built-in function that takes any number of arguments. -/
theorem call_builtin {program : Program} {b : Builtin} (hname : program.function? b.name = some (.ofBuiltin b))
    (harity : b.arity = none) (fuel : Nat) (settings : Settings) (host : Host) (depth : Nat) (slots : List Value)
    {ended : Except Cause Unit} {slots' : List Value} {host' : Host}
    (h : b.perform slots host = (ended, slots', host')) :
    call (fuel + 1) ⟨program, settings, host, depth⟩ b.name slots =
      (.ofExcept ended, slots', ⟨program, settings, host', depth⟩) := by
  have htakes : (Function.ofBuiltin b).takes slots.length = true := by
    simp [Function.takes, Function.arity, Function.ofBuiltin, harity]
  rw [call, callNamed, hname]
  simp only
  rw [Function.run_builtin htakes rfl, Call.perform, h]

/-- Each group goes to a line of its own, as long as the output works. -/
theorem answerAll_write {program : Program} (hname : program.function? "Write" = some (.ofBuiltin .write)) (fuel : Nat)
    (groups : List (List Value)) (settings : Settings) {host : Host}
    (hworks : ∀ n < groups.length, host.fault? n = none) (depth : Nat) :
    answerAll (fuel + 1) ⟨program, settings, host, depth⟩ (groups.map (.call "Write")) =
      (groups.map (⟨.done, ·⟩), ⟨program, settings,
        { host with
          output := host.output ++ Stmt.joinRows (groups.map Builtin.row)
          writes := host.writes.drop groups.length }, depth⟩) := by
  induction groups generalizing host with
  | nil => simp [answerAll, Stmt.joinRows]
  | cons group groups ih =>
    have hwrite : Builtin.write.perform group host = (.ok (), group,
        { host with output := host.output ++ Builtin.row group ++ "\n", writes := host.writes.tail }) := by
      rw [Builtin.perform, Host.writeLine_of_works (hworks 0 (Nat.zero_lt_succ _))]
    have hcall : call (fuel + 1) ⟨program, settings, host, depth⟩ "Write" group = (.done, group, ⟨program, settings,
        { host with output := host.output ++ Builtin.row group ++ "\n", writes := host.writes.tail }, depth⟩) :=
      call_builtin (b := .write) hname rfl fuel settings host depth group hwrite
    rw [List.map_cons, answerAll, answer, hcall]
    simp only
    rw [ih fun n hn => ?_]
    · simp [Stmt.joinRows, String.append_assoc]
    · simpa [Host.fault?] using hworks (n + 1) (Nat.succ_lt_succ hn)

/-- Requests to read take the words in order, however the slots are grouped. -/
theorem answerAll_read {program : Program} (hname : program.function? "Read" = some (.ofBuiltin .read)) (fuel : Nat)
    {slotGroups : List (List Value)} {values : List Value}
    (htypes : slotGroups.flatten.map Value.type = values.map Value.type) (hreadable : ∀ v ∈ values, v.IsReadable)
    (settings : Settings) {host : Host} (hlegible : host.input.IsLegible)
    (hwords : host.input.words = values.map Value.text) (depth : Nat) :
    ∃ (filled : List (List Value)) (behind : Input),
      answerAll (fuel + 1) ⟨program, settings, host, depth⟩ (slotGroups.map (.call "Read")) =
        (filled.map (⟨.done, ·⟩), ⟨program, settings, { host with input := behind }, depth⟩) ∧
      filled.flatten = values ∧ filled.map List.length = slotGroups.map List.length ∧
      behind.IsLegible ∧ behind.words = [] := by
  induction slotGroups generalizing values host with
  | nil =>
    obtain rfl : values = [] := by simpa using htypes.symm
    exact ⟨[], host.input, rfl, rfl, rfl, hlegible, hwords⟩
  | cons slots slotGroups ih =>
    -- The values split where the first group of slots ends.
    rw [List.flatten_cons, List.map_append] at htypes
    obtain ⟨first, rest, rfl, hfirst, hrest⟩ := List.append_eq_map_iff.mp htypes
    rw [List.forall_mem_append] at hreadable
    rw [List.map_append] at hwords
    obtain ⟨next, hfill, hlegible', hwords'⟩ := Builtin.fill_texts hfirst.symm hreadable.1 hlegible hwords
    have hcall := call_builtin (b := .read) hname rfl fuel settings host depth slots hfill
    have hlegible' : { host with input := next }.input.IsLegible := hlegible'
    obtain ⟨filled, behind, hanswers, hvalues, hlengths, hbehind⟩ := ih hrest.symm hreadable.2 hlegible' hwords'
    have hlength : first.length = slots.length := by
      simpa using congrArg List.length hfirst
    refine ⟨first :: filled, behind, ?_, by rw [List.flatten_cons, hvalues], by simp [hlength, hlengths], hbehind⟩
    have hcall : call (fuel + 1) ⟨program, settings, host, depth⟩ "Read" slots =
        (.done, first, ⟨program, settings, { host with input := next }, depth⟩) := hcall
    rw [List.map_cons, answerAll, answer, hcall]
    simp only
    rw [hanswers]
    rfl

/-- Where the output takes a line for each group, values that are words are read back from the lines that they were
written to, into slots of their types and in any grouping. Then the input is at its end. -/
theorem read_written (fuel : Nat) (groups slotGroups : List (List Value))
    (hreadable : ∀ v ∈ groups.flatten, v.IsReadable)
    (htypes : slotGroups.flatten.map Value.type = groups.flatten.map Value.type) (writer : Session)
    (hwrite : writer.program.function? "Write" = some (.ofBuiltin .write))
    (hworks : ∀ n < groups.length, writer.machine.host.fault? n = none) :
    ∃ text written, writer.answerAll (fuel + 1) (groups.map (.call "Write")) = (groups.map (⟨.done, ·⟩), written) ∧
      written.machine.host.output = writer.machine.host.output ++ text ∧
      ∀ reader : Session, reader.program.function? "Read" = some (.ofBuiltin .read) →
        reader.machine.host.input = .ofText text ∨ reader.machine.host.input = .ofBytes text.toUTF8.data.toList →
        ∃ (filled : List (List Value)) (read : Session),
          reader.answerAll (fuel + 1) (slotGroups.map (.call "Read")) = (filled.map (⟨.done, ·⟩), read) ∧
          filled.flatten = groups.flatten ∧ filled.map List.length = slotGroups.map List.length ∧
          ∀ slot, ∃ stopped, read.call (fuel + 1) "Read" [slot] = (.failed (.of .endOfInput), [slot], stopped) := by
  obtain ⟨program, settings, host, depth⟩ := writer
  refine ⟨Stmt.joinRows (groups.map Builtin.row), _, answerAll_write hwrite fuel groups settings hworks depth, rfl, ?_⟩
  rintro ⟨program', settings', host', depth'⟩ hread hinput
  have hinput : host'.input = .ofText (Stmt.joinRows (groups.map Builtin.row)) := by
    rw [Input.ofBytes_toUTF8, or_self] at hinput
    exact hinput
  have hlegible : host'.input.IsLegible := hinput ▸ Input.isLegible_ofText _
  have hwords : host'.input.words = groups.flatten.map Value.text := by
    rw [hinput, Input.words_ofText, Builtin.words_rows hreadable]
  obtain ⟨filled, behind, hanswers, hvalues, hlengths, hlegible', hnone⟩ :=
    answerAll_read hread fuel htypes hreadable settings' hlegible hwords depth'
  refine ⟨filled, _, hanswers, hvalues, hlengths, fun slot => ?_⟩
  have hlegible' : { host' with input := behind }.input.IsLegible := hlegible'
  exact ⟨_, call_builtin (b := .read) hread rfl fuel settings' _ depth' [slot] (Builtin.fill_at_end hlegible' hnone)⟩

end Session

namespace Example

/-- The least and the greatest integer, and a line without a word. -/
def written : List (List Value) :=
  [[.integer Int32.minValue, .string "-é"], [], [.boolean true, .character '"', .integer Int32.maxValue]]

def slots : List (List Value) :=
  [[.integer 0], [], [.string "", .boolean false, .character ' '], [.integer 0]]

/-- An output that takes three lines and no more. -/
def writer : Session :=
  ⟨.empty, ⟨none, none, 3⟩,
    { Host.start (.ofText "") (.ofSeed 0) with writes := [none, none, none], writeFault := some "full" }, 0⟩

def reader (text : String) : Session :=
  ⟨.empty, ⟨none, none, 3⟩, .start (.ofText text) (.ofSeed 0), 0⟩

theorem isReadable_written : ∀ v ∈ written.flatten, v.IsReadable := by
  simp only [written, List.flatten_cons, List.flatten_nil, List.forall_mem_append, List.forall_mem_cons]
  have hstring : (Value.string "-é").IsReadable := (by decide : Text.IsWord "-é")
  have hcharacter : (Value.character '"').IsReadable := (by decide : Text.isBlank '"' = false)
  exact ⟨⟨trivial, hstring, List.forall_mem_nil _⟩, List.forall_mem_nil _,
    ⟨trivial, hcharacter, trivial, List.forall_mem_nil _⟩, List.forall_mem_nil _⟩

end Example

theorem Session.read_written_regrouped : ∃ text written,
    Example.writer.answerAll 1 (Example.written.map (.call "Write")) =
        (Example.written.map (⟨.done, ·⟩), written) ∧
      written.machine.host.output = text ∧
      ∃ (filled : List (List Value)) (read : Session),
        (Example.reader text).answerAll 1 (Example.slots.map (.call "Read")) =
          (filled.map (⟨.done, ·⟩), read) ∧
        filled.flatten = Example.written.flatten ∧ filled.map List.length = [1, 0, 3, 1] ∧
        ∃ stopped, read.call 1 "Read" [.integer 5] = (.failed (.of .endOfInput), [.integer 5], stopped) := by
  obtain ⟨text, written, hwritten, houtput, hread⟩ := Session.read_written 0 Example.written Example.slots
    Example.isReadable_written rfl Example.writer rfl (by decide)
  obtain ⟨filled, read, hanswers, hvalues, hlengths, hend⟩ := hread (Example.reader text) rfl (.inl rfl)
  refine ⟨text, written, hwritten, ?_, filled, read, hanswers, hvalues, hlengths, hend (.integer 5)⟩
  rw [houtput]
  exact String.empty_append

end Offside
