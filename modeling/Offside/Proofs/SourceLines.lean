import Offside.Proofs.InputWords
import Offside.Proofs.Strict.Basic

/-!
# The lines of a source

A table of line starts parts a text into its lines. The line of an offset is counted by the line feeds in front of it,
whether the offset lies between characters, inside one or behind the text; the stretches of the lines, with a line feed
between each two of them, are the text again.
-/

namespace Offside

/-- The number of lines of a text, the last of which is not ended by a line feed. -/
def lineCount (text : String) : Nat :=
  1 + lineFeeds text.toList

/-- The line feeds of a text in front of an offset. A line feed is the byte 10, which no other character has in its
encoding, and the offset may lie inside a character or behind the text. -/
def feedsBelow (text : String) (offset : Nat) : Nat :=
  (text.toUTF8.data.toList.take offset).count 10

/-- The characters of a line, if both ends of its stretch lie between characters of the text. -/
def LineTable.lineText? (t : LineTable) (text : String) (line : Nat) : Option (List Char) :=
  Strict.slice text.toList (t.lineSpan line).start (t.lineSpan line).stop

/-- A table parts a text into lines. -/
structure LineTable.Partitions (t : LineTable) (text : String) : Prop where
  /-- An offset is on the line that the line feeds in front of it count. -/
  lineOf_eq (offset : Nat) : t.lineOf offset = 1 + feedsBelow text offset
  lineOf_le (offset : Nat) : t.lineOf offset ≤ lineCount text
  /-- The starts up to an offset come first, so that their number is found by halving the list of starts. -/
  parted (offset : Nat) {k start : Nat} : t.starts[k]? = some start → (start ≤ offset ↔ k < t.lineOf offset)
  lineOf_lineStart {n : Nat} : 1 ≤ n → n ≤ lineCount text → t.lineOf (t.lineStart n) = n
  start_lineSpan {n : Nat} : 1 ≤ n → n ≤ lineCount text → (t.lineSpan n).start = t.lineStart n
  /-- The stretch of a line is one of the text, without a line feed. -/
  feedless {n : Nat} : 1 ≤ n → n ≤ lineCount text → ∃ line, t.lineText? text n = some line ∧ '\n' ∉ line
  /-- The lines from the first to the last, joined by line feeds, are the text. -/
  joined : ((List.range' 1 (lineCount text)).mapM (t.lineText? text)).map ['\n'].intercalate = some text.toList
  /-- An offset of the text is in the stretch of its line or at the end of it. -/
  within {offset : Nat} : offset ≤ text.utf8ByteSize →
    (t.lineSpan (t.lineOf offset)).start ≤ offset ∧ offset ≤ (t.lineSpan (t.lineOf offset)).stop
  /-- A line that does not exist is empty and at the end of the text. -/
  outside {n : Nat} : n = 0 ∨ lineCount text < n → t.lineSpan n = .point text.utf8ByteSize

/-! ### Line feeds and other characters -/

/-- A text grows by a line feed or by another character. -/
@[elab_as_elim] theorem feed_induction {motive : List Char → Prop} (nil : motive [])
    (feed : ∀ cs, motive cs → motive ('\n' :: cs)) (other : ∀ c cs, c ≠ '\n' → motive cs → motive (c :: cs))
    (cs : List Char) : motive cs := by
  induction cs with
  | nil => exact nil
  | cons c cs ih =>
    by_cases hc : c = '\n'
    · rw [hc]
      exact feed cs ih
    · exact other c cs hc ih

theorem lineFeeds_feed (cs : List Char) : lineFeeds ('\n' :: cs) = lineFeeds cs + 1 :=
  List.count_cons_self

theorem lineFeeds_cons {c : Char} (h : c ≠ '\n') (cs : List Char) : lineFeeds (c :: cs) = lineFeeds cs :=
  List.count_cons_of_ne h

/-! ### Bytes -/

theorem encode_feed : String.utf8EncodeChar '\n' = [10] :=
  rfl

theorem count_take_encode {c : Char} (h : c ≠ '\n') (n : Nat) : ((String.utf8EncodeChar c).take n).count 10 = 0 := by
  refine List.count_eq_zero.mpr fun hmem => ?_
  simpa using Input.ne_lineFeed_of_mem_encode h 10 (List.mem_of_mem_take hmem)

theorem length_bytes (cs : List Char) : (cs.flatMap String.utf8EncodeChar).length = byteSize cs := by
  induction cs with
  | nil => rfl
  | cons c cs ih => rw [List.flatMap_cons, List.length_append, ih, String.length_utf8EncodeChar, byteSize_cons]

theorem count_bytes (cs : List Char) : (cs.flatMap String.utf8EncodeChar).count 10 = lineFeeds cs := by
  induction cs using feed_induction with
  | nil => rfl
  | feed cs ih => rw [List.flatMap_cons, encode_feed, List.singleton_append, List.count_cons_self, ih, lineFeeds_feed]
  | other c cs hc ih =>
    have hnone := count_take_encode hc (String.utf8EncodeChar c).length
    rw [List.take_length] at hnone
    rw [List.flatMap_cons, List.count_append, hnone, ih, lineFeeds_cons hc, Nat.zero_add]

theorem feedsBelow_le (text : String) (offset : Nat) : feedsBelow text offset ≤ lineFeeds text.toList := by
  rw [feedsBelow, Input.bytes_toUTF8, ← count_bytes]
  exact (List.take_sublist _ _).count_le 10

theorem feedsBelow_append {text : String} {before behind : List Char} (h : text.toList = before ++ behind) :
    feedsBelow text (byteSize before) = lineFeeds before := by
  rw [feedsBelow, Input.bytes_toUTF8, h, List.flatMap_append, ← length_bytes, List.take_left, count_bytes]

/-! ### Splitting at line feeds -/

theorem splitOn_feed (cs : List Char) : ('\n' :: cs).splitOn '\n' = [] :: cs.splitOn '\n' := by
  rw [List.splitOn_cons_eq_if_modifyHead, if_pos (by simp)]

theorem splitOn_cons {c : Char} (h : c ≠ '\n') (cs : List Char) :
    ∃ first more, cs.splitOn '\n' = first :: more ∧ (c :: cs).splitOn '\n' = (c :: first) :: more := by
  rw [List.splitOn_cons_eq_if_modifyHead, if_neg (by simpa using h)]
  cases hrest : cs.splitOn '\n' with
  | nil => exact absurd hrest (List.splitOn_ne_nil _ _)
  | cons first more => exact ⟨first, more, rfl, rfl⟩

theorem length_splitOn (cs : List Char) : (cs.splitOn '\n').length = 1 + lineFeeds cs := by
  induction cs using feed_induction with
  | nil => rfl
  | feed cs ih => rw [splitOn_feed, List.length_cons, ih, lineFeeds_feed, Nat.add_assoc]
  | other c cs hc ih =>
    obtain ⟨first, more, hrest, hsplit⟩ := splitOn_cons hc cs
    rw [hrest, List.length_cons] at ih
    rw [hsplit, List.length_cons, ih, lineFeeds_cons hc]

theorem not_mem_of_mem_splitOn {cs line : List Char} (h : line ∈ cs.splitOn '\n') : '\n' ∉ line := by
  induction cs using feed_induction generalizing line with
  | nil => simp_all
  | feed cs ih =>
    rw [splitOn_feed] at h
    rcases List.mem_cons.mp h with rfl | h
    · exact List.not_mem_nil
    · exact ih h
  | other c cs hc ih =>
    obtain ⟨first, more, hrest, hsplit⟩ := splitOn_cons hc cs
    rw [hsplit] at h
    rw [hrest] at ih
    rcases List.mem_cons.mp h with rfl | h
    · exact List.not_mem_cons_of_ne_of_not_mem (Ne.symm hc) (ih List.mem_cons_self)
    · exact ih (List.mem_cons_of_mem _ h)

/-- In a text made of lines, a line stands behind those in front of it and the line feeds that end them. -/
theorem exists_intercalate (front : List (List Char)) (line : List Char) (back : List (List Char)) :
    ∃ behind, ['\n'].intercalate (front ++ line :: back) = front.flatMap (· ++ ['\n']) ++ line ++ behind ∧
      (back = [] → behind = []) := by
  induction front with
  | nil =>
    cases back with
    | nil => exact ⟨[], by simp, fun _ => rfl⟩
    | cons next back =>
      refine ⟨['\n'] ++ ['\n'].intercalate (next :: back), ?_, by simp⟩
      rw [List.nil_append, List.intercalate_cons_cons, List.append_assoc]
      rfl
  | cons first front ih =>
    obtain ⟨behind, htext, hlast⟩ := ih
    refine ⟨behind, ?_, hlast⟩
    rw [List.cons_append, List.intercalate_cons_of_ne_nil (by simp), htext, List.flatMap_cons]
    simp only [List.append_assoc]

/-- Items found one by one, by their numbers from the first on. -/
theorem mapM_range' {α : Type} {f : Nat → Option α} (xs : List α) (first : Nat)
    (h : ∀ k < xs.length, f (first + k) = xs[k]?) : (List.range' first xs.length).mapM f = some xs := by
  induction xs generalizing first with
  | nil => rfl
  | cons x xs ih =>
    have hhead : f first = some x := h 0 (Nat.succ_pos _)
    have hrest : ∀ k < xs.length, f (first + 1 + k) = xs[k]? := by
      intro k hk
      have hnext := h (k + 1) (Nat.succ_lt_succ hk)
      rwa [List.getElem?_cons_succ, Nat.add_comm k, ← Nat.add_assoc] at hnext
    rw [List.length_cons, List.range'_succ, List.mapM_cons, hhead, ih (first + 1) hrest]
    rfl

namespace LineTable

/-! ### Starts in order -/

theorem startsFrom_feed (offset : Nat) (cs : List Char) :
    startsFrom offset ('\n' :: cs) = (offset + 1) :: startsFrom (offset + 1) cs := by
  rw [startsFrom, if_pos rfl]
  rfl

theorem startsFrom_cons {c : Char} (h : c ≠ '\n') (offset : Nat) (cs : List Char) :
    startsFrom offset (c :: cs) = startsFrom (offset + c.utf8Size) cs :=
  if_neg h

theorem pairwise_startsFrom (offset : Nat) (cs : List Char) :
    (offset :: startsFrom offset cs).Pairwise (· < ·) := by
  induction cs using feed_induction generalizing offset with
  | nil => exact List.pairwise_singleton _ _
  | feed cs ih =>
    have hrest := ih (offset + 1)
    rw [startsFrom_feed]
    refine List.pairwise_cons.mpr ⟨fun start hstart => ?_, hrest⟩
    rcases List.mem_cons.mp hstart with rfl | hstart
    · omega
    · have := (List.pairwise_cons.mp hrest).1 start hstart
      omega
  | other c cs hc ih =>
    obtain ⟨hbehind, hrest⟩ := List.pairwise_cons.mp (ih (offset + c.utf8Size))
    rw [startsFrom_cons hc]
    refine List.pairwise_cons.mpr ⟨fun start hstart => ?_, hrest⟩
    have := hbehind start hstart
    omega

/-- In a list that grows, the items up to a limit are those in front of their number. -/
theorem le_iff_lt_countP {starts : List Nat} (h : starts.Pairwise (· < ·)) {k start : Nat}
    (hk : starts[k]? = some start) (offset : Nat) : start ≤ offset ↔ k < starts.countP (· ≤ offset) := by
  induction starts generalizing k with
  | nil => cases hk
  | cons first starts ih =>
    obtain ⟨hfirst, hrest⟩ := List.pairwise_cons.mp h
    by_cases hle : first ≤ offset
    · rw [List.countP_cons_of_pos (by simpa using hle)]
      cases k with
      | zero =>
        obtain rfl : first = start := by simpa using hk
        simp [hle]
      | succ k => rw [ih hrest (by simpa using hk), Nat.add_lt_add_iff_right]
    · -- The first item is above the limit, and so are all behind it.
      have hnone : (first :: starts).countP (· ≤ offset) = 0 := by
        refine List.countP_eq_zero.mpr fun other hother => ?_
        rcases List.mem_cons.mp hother with rfl | hother
        · simpa using hle
        · have := hfirst other hother
          simp only [decide_eq_true_eq]
          omega
      have hstart : first ≤ start := by
        rcases List.mem_cons.mp (List.mem_of_getElem? hk) with rfl | hmem
        · exact Nat.le_refl _
        · exact Nat.le_of_lt (hfirst start hmem)
      rw [hnone]
      omega

variable {text : String}

theorem lineOf_parts (offset : Nat) {k start : Nat} (hk : (ofText text).starts[k]? = some start) :
    start ≤ offset ↔ k < (ofText text).lineOf offset :=
  le_iff_lt_countP (pairwise_startsFrom 0 text.toList) hk offset

/-- Where a line starts, the next one does not start yet. -/
theorem lineOf_start {k start : Nat} (hk : (ofText text).starts[k]? = some start) :
    (ofText text).lineOf start = k + 1 := by
  have hreached : k < (ofText text).lineOf start := (lineOf_parts start hk).mp (Nat.le_refl _)
  refine Nat.le_antisymm (Nat.le_of_not_lt fun hlater => ?_) hreached
  have hlength : k + 1 < (ofText text).starts.length := Nat.lt_of_lt_of_le hlater List.countP_le_length
  have hnext := List.getElem?_eq_getElem hlength
  obtain ⟨hk', rfl⟩ := List.getElem?_eq_some_iff.mp hk
  have hlt := List.pairwise_iff_getElem.mp (pairwise_startsFrom 0 text.toList) k (k + 1) hk' hlength (Nat.lt_succ_self k)
  exact Nat.not_le_of_lt hlt ((lineOf_parts _ hnext).mpr hlater)

/-! ### The line of an offset -/

/-- The starts up to an offset are as many as the line feeds among the bytes in front of it. -/
theorem countP_startsFrom (offset base : Nat) (cs : List Char) :
    (startsFrom base cs).countP (· ≤ offset) = ((cs.flatMap String.utf8EncodeChar).take (offset - base)).count 10 := by
  induction cs using feed_induction generalizing base with
  | nil => simp [startsFrom]
  | feed cs ih =>
    rw [startsFrom_feed, List.flatMap_cons, encode_feed, List.singleton_append]
    by_cases hle : base + 1 ≤ offset
    · obtain ⟨n, hn⟩ : ∃ n, offset - base = n + 1 := ⟨offset - (base + 1), by omega⟩
      have hn' : offset - (base + 1) = n := by omega
      rw [List.countP_cons_of_pos (by simpa using hle), ih, hn', hn, List.take_succ_cons, List.count_cons_self]
    · have hn : offset - base = 0 := by omega
      have hn' : offset - (base + 1) = 0 := by omega
      rw [List.countP_cons_of_neg (by simpa using hle), ih, hn, hn', List.take_zero, List.take_zero]
  | other c cs hc ih =>
    -- The offset may cut the bytes of this character, but none of them is a line feed.
    rw [startsFrom_cons hc, ih, List.flatMap_cons, List.take_append, List.count_append, count_take_encode hc,
      String.length_utf8EncodeChar, Nat.sub_add_eq, Nat.zero_add]

theorem lineOf_feedsBelow (text : String) (offset : Nat) :
    (ofText text).lineOf offset = 1 + feedsBelow text offset := by
  rw [lineOf, ofText, List.countP_cons_of_pos (by simp), countP_startsFrom, feedsBelow, Input.bytes_toUTF8, Nat.sub_zero,
    Nat.add_comm]

theorem lineOf_le_lineCount (text : String) (offset : Nat) : (ofText text).lineOf offset ≤ lineCount text := by
  rw [lineOf_feedsBelow, lineCount]
  exact Nat.add_le_add_left (feedsBelow_le text offset) 1

/-! ### The stretches of the lines -/

theorem size_ofText (text : String) : (ofText text).size = text.utf8ByteSize := by
  have hsize : text.toUTF8.data.toList.length = text.utf8ByteSize := rfl
  rw [← hsize, Input.bytes_toUTF8, length_bytes, ofText]

/-- A line starts behind the lines in front of it and the line feeds that end them. -/
theorem getElem?_startsFrom (base : Nat) (cs : List Char) (k : Nat) :
    (base :: startsFrom base cs)[k]? =
      (cs.splitOn '\n')[k]?.map fun _ => base + byteSize (((cs.splitOn '\n').take k).flatMap (· ++ ['\n'])) := by
  have hfeed : '\n'.utf8Size = 1 := rfl
  induction cs using feed_induction generalizing base k with
  | nil => cases k <;> simp [startsFrom]
  | feed cs ih =>
    rw [startsFrom_feed, splitOn_feed]
    cases k with
    | zero => simp
    | succ k => simp [ih, hfeed, Nat.add_assoc]
  | other c cs hc ih =>
    obtain ⟨first, more, hrest, hsplit⟩ := splitOn_cons hc cs
    have hstarts := ih (base + c.utf8Size) k
    rw [hrest] at hstarts
    rw [startsFrom_cons hc, hsplit]
    cases k with
    | zero => simp
    | succ k => simpa [Nat.add_assoc] using hstarts

variable {n : Nat}

theorem lineStart_succ {t : LineTable} {start : Nat} (h : t.starts[n]? = some start) : t.lineStart (n + 1) = start := by
  rw [lineStart, if_neg (Nat.succ_ne_zero n), Nat.add_sub_cancel, h, Option.getD_some]

theorem lineSpan_of_next {t : LineTable} {next : Nat} (h : t.starts[n]? = some next) :
    t.lineSpan n = ⟨t.lineStart n, max (t.lineStart n) (next - 1)⟩ := by
  rw [lineSpan, h]

theorem lineSpan_of_last {t : LineTable} (h : t.starts[n]? = none) :
    t.lineSpan n = ⟨t.lineStart n, max (t.lineStart n) t.size⟩ := by
  rw [lineSpan, h]

theorem exists_start (h : n < lineCount text) : ∃ start, (ofText text).starts[n]? = some start := by
  rw [lineCount, ← length_splitOn] at h
  exact ⟨_, by rw [ofText, getElem?_startsFrom, List.getElem?_eq_getElem h, Option.map_some]⟩

theorem starts_eq_none (h : lineCount text ≤ n) : (ofText text).starts[n]? = none := by
  rw [lineCount, ← length_splitOn] at h
  rw [ofText, getElem?_startsFrom, List.getElem?_eq_none h, Option.map_none]

/-- The stretch of a line between those in front of it and those behind it. -/
theorem lineSpan_line {front back : List (List Char)} {line : List Char}
    (h : text.toList.splitOn '\n' = front ++ line :: back) :
    (ofText text).lineSpan (front.length + 1) =
      ⟨byteSize (front.flatMap (· ++ ['\n'])), byteSize (front.flatMap (· ++ ['\n']) ++ line)⟩ := by
  have hstarts := getElem?_startsFrom 0 text.toList
  have hstart : (ofText text).lineStart (front.length + 1) = byteSize (front.flatMap (· ++ ['\n'])) :=
    lineStart_succ (by rw [ofText, hstarts, h]; simp)
  -- The last line ends with the text, any other one byte in front of the next start.
  cases back with
  | nil =>
    obtain ⟨behind, htext, hlast⟩ := exists_intercalate front line []
    have hsize : (ofText text).size = byteSize (front.flatMap (· ++ ['\n']) ++ line) := by
      rw [← h, List.intercalate_splitOn, hlast rfl, List.append_nil] at htext
      rw [ofText, htext]
    rw [lineSpan_of_last (by rw [ofText, hstarts, h]; simp), hstart, hsize, byteSize_append,
      Nat.max_eq_right (Nat.le_add_right _ _)]
  | cons next back =>
    have hnext : (ofText text).starts[front.length + 1]? =
        some (byteSize (front.flatMap (· ++ ['\n']) ++ line) + 1) := by
      have hfeed : '\n'.utf8Size = 1 := rfl
      rw [ofText, hstarts, h]
      simp [List.take_length_add_append, hfeed, Nat.add_assoc]
    rw [lineSpan_of_next hnext, hstart, Nat.add_sub_cancel, byteSize_append, Nat.max_eq_right (Nat.le_add_right _ _)]

theorem lineText?_line {front back : List (List Char)} {line : List Char}
    (h : text.toList.splitOn '\n' = front ++ line :: back) :
    (ofText text).lineText? text (front.length + 1) = some line := by
  obtain ⟨behind, htext, -⟩ := exists_intercalate front line back
  rw [← h, List.intercalate_splitOn] at htext
  rw [lineText?, lineSpan_line h, htext]
  exact Strict.slice_append _ _ _

theorem lineText?_succ (h : n < lineCount text) :
    (ofText text).lineText? text (n + 1) = (text.toList.splitOn '\n')[n]? := by
  rw [lineCount, ← length_splitOn] at h
  have hlines := List.take_append_drop n (text.toList.splitOn '\n')
  rw [List.drop_eq_getElem_cons h] at hlines
  have hline := lineText?_line hlines.symm
  rwa [List.length_take_of_le (Nat.le_of_lt h), ← List.getElem?_eq_getElem h] at hline

theorem mapM_lineText? (text : String) :
    (List.range' 1 (lineCount text)).mapM ((ofText text).lineText? text) = some (text.toList.splitOn '\n') := by
  rw [lineCount, ← length_splitOn]
  refine mapM_range' _ 1 fun k hk => ?_
  rw [length_splitOn] at hk
  rw [Nat.add_comm, lineText?_succ hk]

/-! ### The table -/

theorem within_lineSpan {offset : Nat} (h : offset ≤ (ofText text).size) :
    ((ofText text).lineSpan ((ofText text).lineOf offset)).start ≤ offset ∧
      offset ≤ ((ofText text).lineSpan ((ofText text).lineOf offset)).stop := by
  obtain ⟨k, hline⟩ : ∃ k, (ofText text).lineOf offset = k + 1 :=
    ⟨feedsBelow text offset, by rw [lineOf_feedsBelow, Nat.add_comm]⟩
  obtain ⟨start, hstart⟩ : ∃ start, (ofText text).starts[k]? = some start :=
    exists_start (by have := lineOf_le_lineCount text offset; omega)
  have hbelow : (ofText text).lineStart (k + 1) ≤ offset := by
    rw [lineStart_succ hstart]
    exact (lineOf_parts offset hstart).mpr (by omega)
  rw [hline]
  cases hnext : (ofText text).starts[k + 1]? with
  | none =>
    rw [lineSpan_of_last hnext]
    exact ⟨hbelow, Nat.le_trans h (Nat.le_max_right _ _)⟩
  | some next =>
    have habove : ¬ next ≤ offset := by
      rw [lineOf_parts offset hnext]
      omega
    rw [lineSpan_of_next hnext]
    exact ⟨hbelow, Nat.le_trans (by omega) (Nat.le_max_right _ _)⟩

theorem lineSpan_zero (text : String) : (ofText text).lineSpan 0 = .point (ofText text).size := by
  have hstart : (ofText text).lineStart 0 = (ofText text).size := if_pos rfl
  rw [lineSpan_of_next (by rfl), hstart]
  simp [Span.point]

theorem lineSpan_behind (h : lineCount text < n) : (ofText text).lineSpan n = .point (ofText text).size := by
  obtain ⟨k, rfl⟩ : ∃ k, n = k + 1 := ⟨n - 1, by omega⟩
  have hstart : (ofText text).lineStart (k + 1) = (ofText text).size := by
    rw [lineStart, if_neg (Nat.succ_ne_zero k), Nat.add_sub_cancel, starts_eq_none (by omega), Option.getD_none]
  rw [lineSpan_of_last (starts_eq_none (by omega)), hstart, Nat.max_self]
  rfl

/-- The table of a text parts it into its lines. -/
theorem partitions_ofText (text : String) : (ofText text).Partitions text where
  lineOf_eq := lineOf_feedsBelow text
  lineOf_le := lineOf_le_lineCount text
  parted offset _ _ := lineOf_parts offset
  lineOf_lineStart {n} hfirst hlast := by
    obtain ⟨k, rfl⟩ : ∃ k, n = k + 1 := ⟨n - 1, by omega⟩
    obtain ⟨start, hstart⟩ := exists_start hlast
    rw [lineStart_succ hstart, lineOf_start hstart]
  start_lineSpan _ _ := rfl
  feedless {n} hfirst hlast := by
    obtain ⟨k, rfl⟩ : ∃ k, n = k + 1 := ⟨n - 1, by omega⟩
    have hlength : k < (text.toList.splitOn '\n').length := by rwa [length_splitOn]
    exact ⟨_, by rw [lineText?_succ hlast, List.getElem?_eq_getElem hlength],
      not_mem_of_mem_splitOn (List.getElem_mem hlength)⟩
  joined := by rw [mapM_lineText?, Option.map_some, List.intercalate_splitOn]
  within h := within_lineSpan (by rwa [size_ofText])
  outside h := by
    rw [← size_ofText]
    rcases h with rfl | h
    · exact lineSpan_zero text
    · exact lineSpan_behind h

/-- A first line with a character of two bytes, an empty line, and an empty line at the end. -/
theorem partitions_ofText_wide :
    ∃ t, t = ofText "é\r\n\nab\n" ∧ t.starts = [0, 4, 5, 8] ∧
      t.lineOf 1 = 1 + feedsBelow "é\r\n\nab\n" 1 ∧ t.lineOf (t.lineStart 4) = 4 ∧
      (∃ line, t.lineText? "é\r\n\nab\n" 2 = some line ∧ '\n' ∉ line) ∧
      ((t.lineSpan (t.lineOf 7)).start ≤ 7 ∧ 7 ≤ (t.lineSpan (t.lineOf 7)).stop) ∧ t.lineSpan 5 = .point 8 := by
  have h := partitions_ofText "é\r\n\nab\n"
  have hcount : lineCount "é\r\n\nab\n" = 4 := by decide
  have hsize : "é\r\n\nab\n".utf8ByteSize = 8 := by decide
  refine ⟨_, rfl, by decide, h.lineOf_eq 1, h.lineOf_lineStart (by decide) (by omega), h.feedless (by decide) (by omega),
    h.within (by omega), ?_⟩
  rw [h.outside (.inr (by omega)), hsize]

end LineTable

end Offside
