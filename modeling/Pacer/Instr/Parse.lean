import Pacer.Instr.Report
import Pacer.Instr.Percentile
import Pacer.Lib.TextSearch
import Mathlib.Data.List.TakeWhile

set_option autoImplicit false

/-! # Reading a line back

`isweep.py` finds the counters in a line by searching for their names, and cuts the text after
`hist=` at commas and colons. A name can be found only where a field starts: none of the words
in front of it holds the beginning of the name (`Clear`), and numbers have no letters. The line
that `report` prints therefore gives back the counters and the nonzero cells
(`line_round_trip`).
-/

namespace Pacer.Pinstr

open Histogram TextSearch

/-! ## The functions of `isweep.py` -/

/-- `pat=(\d+)` at the start of `s`; the digits of the line are ASCII digits. -/
def matchNum (pat s : List Char) : Option Nat :=
  if pat ++ ['='] <+: s then
    let digits := (s.drop (pat.length + 1)).takeWhile Char.isDigit
    if digits = [] then none else some (Nat.ofDigitChars 10 digits 0)
  else none

def num (pat : String) (s : List Char) : Option Nat := search (matchNum pat.toList) s

/-- `avg=([\d.]+)` at the start of `s` -/
def matchAvg (s : List Char) : Option (List Char) :=
  if "avg".toList ++ ['='] <+: s then
    let text := (s.drop 4).takeWhile fun c => c.isDigit || c = '.'
    if text = [] then none else some text
  else none

/-- `hist=(.*)$` at the start of `s` -/
def matchHist (s : List Char) : Option (List Char) :=
  if "hist".toList ++ ['='] <+: s then
    let tail := s.drop 5
    let line := tail.takeWhile (· ≠ '\n')
    if tail.drop line.length = [] ∨ tail.drop line.length = ['\n'] then some line else none
  else none

/-- `int(s)` of a text that is all digits; `isweep.py` calls it on no other. -/
def int (s : List Char) : Option Nat :=
  if s ≠ [] ∧ s.all Char.isDigit then some (Nat.ofDigitChars 10 s 0) else none

/-- `i, c = kv.split(':')` and `int` of both; `none` for an exception. -/
def parseCell (kv : List Char) : Option (Nat × Nat) :=
  match kv.splitOn ':' with
  | [i, c] =>
      match int i, int c with
      | some i, some c => some (i, c)
      | _, _ => none
  | _ => none

/-- The loop over `split(',')`, with `if kv`. -/
def parseCells (hist : List Char) : Option (List (Nat × Nat)) :=
  ((hist.splitOn ',').filter (· ≠ [])).mapM parseCell

/-- The dictionary after the cells of the line `l` are added to it. -/
def addLine (hist : Counter Nat) (l : List Char) : Option (Counter Nat) :=
  (search matchHist l).bind fun tail => (parseCells tail).map hist.addAll

/-! ## Numbers -/

theorem ofDigitChars_llu (n : Nat) : Nat.ofDigitChars 10 (llu n) 0 = n :=
  Nat.ofDigitChars_ten_toDigits

theorem isDigit_of_mem_llu {n : Nat} {c : Char} (h : c ∈ llu n) : c.isDigit = true :=
  Nat.isDigit_of_mem_toDigits (by decide) (by decide) h

theorem llu_ne_nil (n : Nat) : llu n ≠ [] := Nat.toDigits_ne_nil

theorem not_mem_llu {c : Char} (h : c.isDigit = false) (n : Nat) : c ∉ llu n := by
  intro hc
  rw [isDigit_of_mem_llu hc] at h
  cases h

theorem int_llu (n : Nat) : int (llu n) = some n := by
  have hall : (llu n).all Char.isDigit = true :=
    List.all_eq_true.mpr fun c hc => isDigit_of_mem_llu hc
  rw [int, if_pos ⟨llu_ne_nil n, hall⟩, ofDigitChars_llu]

theorem fmtInt_natCast (n : Nat) : fmtInt (n : Int) = llu n := by
  rw [fmtInt, if_neg (by omega), Int.natAbs_natCast]
  rfl

/-- The characters of a printed number. -/
def IsNumChar (c : Char) : Prop := c.isDigit = true ∨ c = '-' ∨ c = '.'

instance (c : Char) : Decidable (IsNumChar c) :=
  inferInstanceAs (Decidable (c.isDigit = true ∨ c = '-' ∨ c = '.'))

theorem isNumChar_llu {n : Nat} : ∀ c ∈ llu n, IsNumChar c :=
  fun _ hc => Or.inl (isDigit_of_mem_llu hc)

theorem isNumChar_fmtInt {z : Int} : ∀ c ∈ fmtInt z, IsNumChar c := by
  intro c hc
  unfold fmtInt at hc
  split at hc
  · rcases List.mem_cons.mp hc with hminus | hdigit
    · exact Or.inr (Or.inl hminus)
    · exact isNumChar_llu c hdigit
  · exact isNumChar_llu c hc

theorem isNumChar_fmtTenths {x : ℚ} : ∀ c ∈ fmtTenths x, IsNumChar c := by
  intro c hc
  rcases List.mem_append.mp hc with hint | hfrac
  · exact isNumChar_llu c hint
  · rcases List.mem_cons.mp hfrac with hdot | hdigit
    · exact Or.inr (Or.inr hdot)
    · exact isNumChar_llu c hdigit

/-! ## The fields of a line -/

/-- A word of the line and the number after it. -/
def fieldText (f : String × List Char) : List Char := ' ' :: f.1.toList ++ '=' :: f.2

/-- All fields but the histogram. -/
def fields (s : ThreadStats) (tid : Int) : List (String × List Char) :=
  [("tid", fmtInt tid), ("ops", llu s.ops), ("retired", llu s.retired), ("freed", llu s.freed),
    ("peak", llu s.peak), ("avg", fmtTenths s.avg), ("maxcyc", llu s.maxcyc)]

def names : List String := ["tid", "ops", "retired", "freed", "peak", "avg", "maxcyc"]

theorem map_fst_fields (s : ThreadStats) (tid : Int) : (fields s tid).map Prod.fst = names := rfl

theorem isNumChar_fields (s : ThreadStats) (tid : Int) :
    ∀ f ∈ fields s tid, ∀ c ∈ f.2, IsNumChar c := by
  simp only [fields, List.forall_mem_cons, List.not_mem_nil, false_implies, implies_true, and_true]
  exact ⟨isNumChar_fmtInt, isNumChar_llu, isNumChar_llu, isNumChar_llu, isNumChar_llu,
    isNumChar_fmtTenths, isNumChar_llu⟩

/-- **The line as a list of fields.** -/
theorem lineText_eq (s : ThreadStats) (tid : Int) :
    lineText s tid = "INSTR".toList ++ ((fields s tid).flatMap fieldText
      ++ fieldText ("hist", s.cells.flatMap cellText)) := by
  -- each word of the format ends a field and names the next one
  have hwords : "INSTR tid=".toList = "INSTR".toList ++ ' ' :: "tid".toList ++ ['=']
      ∧ " ops=".toList = ' ' :: "ops".toList ++ ['=']
      ∧ " retired=".toList = ' ' :: "retired".toList ++ ['=']
      ∧ " freed=".toList = ' ' :: "freed".toList ++ ['=']
      ∧ " peak=".toList = ' ' :: "peak".toList ++ ['=']
      ∧ " avg=".toList = ' ' :: "avg".toList ++ ['=']
      ∧ " maxcyc=".toList = ' ' :: "maxcyc".toList ++ ['=']
      ∧ " hist=".toList = ' ' :: "hist".toList ++ ['='] := by decide
  obtain ⟨h₁, h₂, h₃, h₄, h₅, h₆, h₇, h₈⟩ := hwords
  unfold lineText headText
  rw [h₁, h₂, h₃, h₄, h₅, h₆, h₇, h₈]
  simp only [fields, fieldText, List.flatMap_cons, List.flatMap_nil, List.append_assoc,
    List.cons_append, List.nil_append, List.append_nil]

/-- No text in front of field `j` can be the start of `pat=`. -/
structure Clear (pat : String) (j : Nat) : Prop where
  start : Skips (pat.toList ++ ['=']) "INSTR".toList
  words : ∀ name ∈ names.take j, Skips (pat.toList ++ ['=']) (' ' :: name.toList ++ ['='])
  blank : Skips (pat.toList ++ ['=']) [' ']
  head : ∃ k, (pat.toList ++ ['=']).head? = some k ∧ ¬ IsNumChar k

/-- **A search for a name finds its field.** -/
theorem search_lineText {β : Type} {f : List Char → Option β} {pat : String} {j : Nat}
    (hf : ∀ t, ¬ pat.toList ++ ['='] <+: t → f t = none) (hclear : Clear pat j)
    {s : ThreadStats} {tid : Int} {value : List Char} {after : List (String × List Char)}
    (hsplit : fields s tid ++ [("hist", s.cells.flatMap cellText)]
      = (fields s tid).take j ++ (pat, value) :: after) :
    search f (lineText s tid)
      = search f (pat.toList ++ '=' :: (value ++ after.flatMap fieldText)) := by
  obtain ⟨k, hk, hnum⟩ := hclear.head
  have hbefore : Skips (pat.toList ++ ['=']) (((fields s tid).take j).flatMap fieldText) := by
    apply Skips.flatMap
    intro g hg
    have hname : g.1 ∈ names.take j := by
      rw [← map_fst_fields s tid, ← List.map_take]
      exact List.mem_map_of_mem hg
    have hvalue : Skips (pat.toList ++ ['=']) g.2 := by
      apply Skips.of_head hk
      rintro c hc rfl
      exact hnum (isNumChar_fields s tid g (List.mem_of_mem_take hg) c hc)
    have happ : fieldText g = (' ' :: g.1.toList ++ ['=']) ++ g.2 := by simp [fieldText]
    rw [happ]
    exact (hclear.words g.1 hname).append hvalue
  have hline : lineText s tid = ("INSTR".toList ++ ((fields s tid).take j).flatMap fieldText
      ++ [' ']) ++ (pat.toList ++ '=' :: (value ++ after.flatMap fieldText)) := by
    have hfields : (fields s tid).flatMap fieldText
        ++ fieldText ("hist", s.cells.flatMap cellText)
        = ((fields s tid).take j ++ (pat, value) :: after).flatMap fieldText := by
      rw [← hsplit, List.flatMap_append, List.flatMap_singleton]
    rw [lineText_eq, hfields]
    simp [fieldText]
  rw [hline, search_append hf ((hclear.start.append hbefore).append hclear.blank)]

/-- The text behind a field starts with a blank, if there is any. -/
theorem head_flatMap_fieldText {after : List (String × List Char)} :
    ∀ c ∈ (after.flatMap fieldText).head?, c = ' ' := by
  cases after with
  | nil => simp
  | cons g after => simp [fieldText, eq_comm]

/-- What is read of a text whose characters all pass the test, up to one that does not. -/
theorem takeWhile_append_of_head {p : Char → Bool} {x rest : List Char}
    (hx : ∀ c ∈ x, p c = true) (hrest : ∀ c ∈ rest.head?, p c = false) :
    (x ++ rest).takeWhile p = x := by
  rw [List.takeWhile_append_of_pos hx]
  cases rest with
  | nil => simp
  | cons c rest =>
      have hc : p c = false := hrest c rfl
      rw [List.takeWhile_cons_of_neg (by simp [hc]), List.append_nil]

theorem matchNum_of_not_prefix {pat : List Char} (t : List Char) (h : ¬ pat ++ ['='] <+: t) :
    matchNum pat t = none :=
  if_neg h

theorem matchAvg_of_not_prefix (t : List Char) (h : ¬ "avg".toList ++ ['='] <+: t) :
    matchAvg t = none :=
  if_neg h

theorem matchHist_of_not_prefix (t : List Char) (h : ¬ "hist".toList ++ ['='] <+: t) :
    matchHist t = none :=
  if_neg h

/-- A number behind its name is read whole. -/
theorem matchNum_llu (pat : List Char) (n : Nat) {rest : List Char}
    (hrest : ∀ c ∈ rest.head?, c = ' ') :
    matchNum pat (pat ++ '=' :: (llu n ++ rest)) = some n := by
  have hprefix : pat ++ ['='] <+: pat ++ '=' :: (llu n ++ rest) := ⟨llu n ++ rest, by simp⟩
  have hdrop : (pat ++ '=' :: (llu n ++ rest)).drop (pat.length + 1) = llu n ++ rest := by
    rw [← List.drop_drop, List.drop_left']
    · rfl
    · rfl
  have hdigits : (llu n ++ rest).takeWhile Char.isDigit = llu n := by
    apply takeWhile_append_of_head fun c hc => isDigit_of_mem_llu hc
    intro c hc
    rw [hrest c hc]
    rfl
  simp only [matchNum, if_pos hprefix, hdrop, hdigits, if_neg (llu_ne_nil n), ofDigitChars_llu]

theorem num_lineText {pat : String} {j : Nat} (hclear : Clear pat j) {s : ThreadStats} {tid : Int}
    {n : Nat} {after : List (String × List Char)}
    (hsplit : fields s tid ++ [("hist", s.cells.flatMap cellText)]
      = (fields s tid).take j ++ (pat, llu n) :: after) :
    num pat (lineText s tid) = some n := by
  rw [num, search_lineText matchNum_of_not_prefix hclear hsplit]
  exact search_of_some (matchNum_llu _ n head_flatMap_fieldText)

theorem fmtTenths_ne_nil (x : ℚ) : fmtTenths x ≠ [] :=
  List.append_ne_nil_of_left_ne_nil (llu_ne_nil _) _

/-- The average is printed without a sign, so its text is read whole. -/
theorem matchAvg_fmtTenths (x : ℚ) {rest : List Char} (hrest : ∀ c ∈ rest.head?, c = ' ') :
    matchAvg ("avg".toList ++ '=' :: (fmtTenths x ++ rest)) = some (fmtTenths x) := by
  have hprefix : "avg".toList ++ ['='] <+: "avg".toList ++ '=' :: (fmtTenths x ++ rest) :=
    ⟨fmtTenths x ++ rest, by simp⟩
  have hdrop : ("avg".toList ++ '=' :: (fmtTenths x ++ rest)).drop 4 = fmtTenths x ++ rest := rfl
  have htext : (fmtTenths x ++ rest).takeWhile (fun c => c.isDigit || c = '.')
      = fmtTenths x := by
    apply takeWhile_append_of_head
    · intro c hc
      rw [Bool.or_eq_true, decide_eq_true_eq]
      rcases List.mem_append.mp hc with hint | hfrac
      · exact Or.inl (isDigit_of_mem_llu hint)
      · rcases List.mem_cons.mp hfrac with hdot | hdigit
        · exact Or.inr hdot
        · exact Or.inl (isDigit_of_mem_llu hdigit)
    · intro c hc
      rw [hrest c hc]
      rfl
  simp only [matchAvg, if_pos hprefix, hdrop, htext, if_neg (fmtTenths_ne_nil x)]

theorem clear_retired : Clear "retired" 2 :=
  ⟨by decide, by decide, by decide, 'r', rfl, by decide⟩

theorem clear_freed : Clear "freed" 3 := ⟨by decide, by decide, by decide, 'f', rfl, by decide⟩

theorem clear_peak : Clear "peak" 4 := ⟨by decide, by decide, by decide, 'p', rfl, by decide⟩

theorem clear_avg : Clear "avg" 5 := ⟨by decide, by decide, by decide, 'a', rfl, by decide⟩

theorem clear_maxcyc : Clear "maxcyc" 6 :=
  ⟨by decide, by decide, by decide, 'm', rfl, by decide⟩

theorem clear_hist : Clear "hist" 7 := ⟨by decide, by decide, by decide, 'h', rfl, by decide⟩

/-! ## The cells -/

/-- The text of a cell up to its comma. -/
theorem cellText_eq (e : Nat × Nat) : cellText e = (llu e.1 ++ ':' :: llu e.2) ++ [','] := by
  rw [cellText, fmtInt_natCast]

/-- Up to its comma a cell has digits and its colon. -/
theorem not_mem_cell {c : Char} (hdigit : c.isDigit = false) (hcolon : c ≠ ':') (e : Nat × Nat) :
    c ∉ llu e.1 ++ ':' :: llu e.2 := by
  intro h
  rcases List.mem_append.mp h with hidx | hcount
  · exact not_mem_llu hdigit e.1 hidx
  · rcases List.mem_cons.mp hcount with heq | hcount
    · exact hcolon heq
    · exact not_mem_llu hdigit e.2 hcount

theorem parseCell_llu (i c : Nat) : parseCell (llu i ++ ':' :: llu c) = some (i, c) := by
  have hsplit : (llu i ++ ':' :: llu c).splitOn ':' = [llu i, llu c] := by
    rw [List.splitOn_append_cons_self, List.splitOn_eq_singleton (not_mem_llu rfl i),
      List.splitOn_eq_singleton (not_mem_llu rfl c)]
    rfl
  simp only [parseCell, hsplit, int_llu]

/-- The first cell of a text is split off at its comma. -/
theorem parseCells_cons (e : Nat × Nat) (rest : List Char) :
    parseCells (cellText e ++ rest) = (parseCells rest).map (e :: ·) := by
  have hcomma : ',' ∉ llu e.1 ++ ':' :: llu e.2 := not_mem_cell rfl (by decide) e
  have hsplit : (cellText e ++ rest).splitOn ','
      = (llu e.1 ++ ':' :: llu e.2) :: rest.splitOn ',' := by
    rw [cellText_eq, List.append_assoc, List.singleton_append, List.splitOn_append_cons_self,
      List.splitOn_eq_singleton hcomma]
    rfl
  unfold parseCells
  rw [hsplit, List.filter_cons_of_pos (by simp), List.mapM_cons, parseCell_llu]
  cases ((rest.splitOn ',').filter (· ≠ [])).mapM parseCell <;> rfl

/-- **The cells are read back**, the empty text behind the last comma is not one. -/
theorem parseCells_cellText (cells : List (Nat × Nat)) :
    parseCells (cells.flatMap cellText) = some cells := by
  induction cells with
  | nil => rfl
  | cons e cells ih => rw [List.flatMap_cons, parseCells_cons, ih, Option.map_some]

/-- The characters at which `str.splitlines` ends a line. -/
def lineBreaks : List Char := ['\n', '\r'] ++ [11, 12, 28, 29, 30, 133, 8232, 8233].map Char.ofNat

theorem lineBreak_not_mem_cells {c : Char} (hc : c ∈ lineBreaks) (cells : List (Nat × Nat)) :
    c ∉ cells.flatMap cellText := by
  intro h
  have hplain : ∀ c ∈ lineBreaks, c.isDigit = false ∧ c ≠ ':' ∧ c ≠ ',' :=
    List.forall_iff_forall_mem.mp (by decide)
  obtain ⟨hdigit, hcolon, hcomma⟩ := hplain c hc
  obtain ⟨e, -, he⟩ := List.mem_flatMap.mp h
  rw [cellText_eq] at he
  rcases List.mem_append.mp he with hcell | hlast
  · exact not_mem_cell hdigit hcolon e hcell
  · exact hcomma (List.mem_singleton.mp hlast)

theorem matchHist_cells {tail : List Char} (h : '\n' ∉ tail) :
    matchHist ("hist".toList ++ '=' :: tail) = some tail := by
  have hprefix : "hist".toList ++ ['='] <+: "hist".toList ++ '=' :: tail := ⟨tail, by simp⟩
  have hdrop : ("hist".toList ++ '=' :: tail).drop 5 = tail := rfl
  have hline : tail.takeWhile (· ≠ '\n') = tail := by
    rw [List.takeWhile_eq_self_iff]
    intro c hc
    rw [decide_eq_true_eq]
    rintro rfl
    exact h hc
  simp only [matchHist, if_pos hprefix, hdrop, hline, List.drop_length, true_or, if_true]

theorem addLine_lineText (hist : Counter Nat) (s : ThreadStats) (tid : Int) :
    addLine hist (lineText s tid) = some (hist.addAll s.cells) := by
  have hfound : search matchHist (lineText s tid) = some (s.cells.flatMap cellText) := by
    rw [search_lineText matchHist_of_not_prefix clear_hist
      (show fields s tid ++ [("hist", s.cells.flatMap cellText)] = _ from rfl)]
    refine search_of_some ?_
    rw [List.flatMap_nil, List.append_nil]
    exact matchHist_cells (lineBreak_not_mem_cells (by decide) s.cells)
  rw [addLine, hfound, Option.bind_some, parseCells_cellText, Option.map_some]

theorem search_avg_lineText (s : ThreadStats) (tid : Int) :
    search matchAvg (lineText s tid) = some (fmtTenths s.avg) := by
  rw [search_lineText matchAvg_of_not_prefix clear_avg
    (show fields s tid ++ [("hist", s.cells.flatMap cellText)] = _ from rfl)]
  exact search_of_some (matchAvg_fmtTenths s.avg head_flatMap_fieldText)

/-- What `report` prints before its newline is one line. -/
theorem lineBreak_not_mem_lineText {c : Char} (hc : c ∈ lineBreaks) (s : ThreadStats)
    (tid : Int) : c ∉ lineText s tid := by
  rw [lineText_eq]
  intro h
  have hwords : ∀ c ∈ lineBreaks, c ∉ "INSTR".toList ∧ c ∉ ' ' :: "hist".toList ∧ c ≠ '='
      ∧ ¬ IsNumChar c ∧ ∀ name ∈ names, c ∉ ' ' :: name.toList :=
    List.forall_iff_forall_mem.mp (by decide)
  obtain ⟨hstart, hlast, hequal, hnum, hname⟩ := hwords c hc
  rcases List.mem_append.mp h with hmem | h
  · exact hstart hmem
  · rcases List.mem_append.mp h with hfield | hhist
    · obtain ⟨f, hf, hmem⟩ := List.mem_flatMap.mp hfield
      rcases List.mem_append.mp hmem with hword | hvalue
      · exact hname f.1 (map_fst_fields s tid ▸ List.mem_map_of_mem hf) hword
      · rcases List.mem_cons.mp hvalue with heq | hvalue
        · exact hequal heq
        · exact hnum (isNumChar_fields s tid f hf _ hvalue)
    · rcases List.mem_append.mp hhist with hword | hcells
      · exact hlast hword
      · rcases List.mem_cons.mp hcells with heq | hcells
        · exact hequal heq
        · exact lineBreak_not_mem_cells hc _ hcells

/-- **The `INSTR` line round-trips.** Whatever the counters, the cells and the `tid` are and
whatever the buffer held before, `report` writes one line, within its buffer and within memory.
Reading the line gives back the peak, the retired, freed and maximum counts, the text of the
average, and the nonzero cells, each under its index and no others. -/
theorem line_round_trip {s : ThreadStats} (hs : s.Bounded) {tid : Int}
    (htid : -2 ^ 31 ≤ tid ∧ tid < 2 ^ 31) (buf : Nat → Char) :
    ∃ line, (report buf s tid).2 = line ++ ['\n']
      ∧ (report buf s tid).2.length ≤ bufSize
      ∧ (∀ j, bufSize ≤ j → (report buf s tid).1 j = buf j)
      ∧ '\n' ∉ line ∧ "INSTR".toList <+: line
      ∧ num "peak" line = some s.peak
      ∧ num "retired" line = some s.retired
      ∧ num "freed" line = some s.freed
      ∧ num "maxcyc" line = some s.maxcyc
      ∧ search matchAvg line = some (fmtTenths s.avg)
      ∧ ∃ hist, addLine Counter.empty line = some hist
        ∧ (∀ i, i < 256 → hist.get i = s.hist i)
        ∧ ∀ i, i ∈ hist.keys ↔ i < 256 ∧ s.hist i ≠ 0 := by
  obtain ⟨hwritten, hlen, hframe⟩ := report_eq hs htid buf
  refine ⟨lineText s tid, hwritten, hlen, hframe, lineBreak_not_mem_lineText (by decide) s tid, ?_,
    num_lineText clear_peak rfl, num_lineText clear_retired rfl, num_lineText clear_freed rfl,
    num_lineText clear_maxcyc rfl, ?_, _, addLine_lineText _ s tid, fun i hi => ?_,
    fun i => ?_⟩
  · rw [lineText_eq]
    exact List.prefix_append _ _
  · exact search_avg_lineText s tid
  · rw [Counter.get_addAll, Counter.get_empty, Nat.zero_add, s.sum_cells hi]
  · rw [Counter.mem_keys_addAll, Counter.keys_empty]
    simp only [List.not_mem_nil, false_or, ThreadStats.mem_keys_cells]

/-- Every counter and every cell at its largest value. -/
def fullStats : ThreadStats :=
  { retired := 2 ^ 64 - 1, freed := 2 ^ 64 - 1, ops := 2 ^ 64 - 1, peak := 2 ^ 64 - 1,
    sum := 2 ^ 64 - 1, samples := 2 ^ 64 - 1, maxcyc := 2 ^ 64 - 1, hist := fun _ => 2 ^ 64 - 1 }

theorem bounded_fullStats : fullStats.Bounded :=
  ⟨by decide, by decide, by decide, by decide, by decide, by decide, by decide,
    fun _ => show 2 ^ 64 - 1 < 2 ^ 64 by decide⟩

/-- The longest line of all, with the longest `tid`. -/
theorem line_round_trip_full :
    ∃ line, (report (fun _ => ' ') fullStats (-2 ^ 31)).2 = line ++ ['\n']
      ∧ num "peak" line = some (2 ^ 64 - 1)
      ∧ ∃ hist, addLine Counter.empty line = some hist ∧ hist.get 255 = 2 ^ 64 - 1 := by
  obtain ⟨line, hwritten, -, -, -, -, hpeak, -, -, -, -, hist, hadd, hget, -⟩ :=
    line_round_trip bounded_fullStats ⟨le_rfl, by decide⟩ (fun _ => ' ')
  exact ⟨line, hwritten, hpeak, hist, hadd, hget 255 (by decide)⟩

end Pacer.Pinstr
