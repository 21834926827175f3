import Mathlib.Data.List.TakeWhile

/-!
# Reading SELECT statements back

A program that puts the text of a query together from pieces, and the list of its arguments along
with it, has to get the text right, and the numbers of the placeholders.  Here the text is read back
in the way the database does it, for statements of the form

  SELECT … FROM table [WHERE condition AND … AND condition] ORDER BY column DESC [LIMIT $k]

in which a condition is `column = $k` or `column IN ($k,…,$l)`.  A text is split into words at white
space (`words`), the words are read into a statement (`Select.read`), and a statement has a meaning
on the rows of a table (`Select.Returns`).  Rows that the ORDER BY does not separate may be returned
in any order.

`Select.words` spells a statement, and `Select.read_of_words` says that a text with these words is
read as this statement; `placeholders_of_words` says which placeholders it uses.
-/

namespace GpuScheduler.Lib

/-! ## Words -/

/-- The words of a text. -/
def words (text : String) : List String :=
  ((text.toList.splitOnP Char.isWhitespace).filter fun w ↦ !w.isEmpty).map String.ofList

theorem words_append_space (a b : String) : words (a ++ (" " ++ b)) = words a ++ words b := by
  have htext : (a ++ (" " ++ b)).toList = a.toList ++ ' ' :: b.toList := by
    rw [String.toList_append, String.toList_append]
    rfl
  rw [words, htext, List.splitOnP_append_cons _ _ (by decide), List.filter_append, List.map_append]
  rfl

/-- A text that is one word. -/
def IsWord (w : String) : Prop := w.toList ≠ [] ∧ ∀ c ∈ w.toList, c.isWhitespace = false

instance (w : String) : Decidable (IsWord w) :=
  decidable_of_iff (w.toList ≠ [] ∧ (w.toList.all fun c ↦ !c.isWhitespace) = true)
    (by simp [IsWord])

theorem words_of_isWord {w : String} (h : IsWord w) : words w = [w] := by
  rw [words, List.splitOnP_eq_singleton h.2, List.filter_cons, if_pos, List.filter_nil,
    List.map_singleton, String.ofList_toList]
  simpa using h.1

/-- Texts that are joined by a word between blanks. -/
theorem words_intercalate {sep : String} (hsep : IsWord sep) (texts : List String) :
    words ((" " ++ (sep ++ " ")).intercalate texts) = [sep].intercalate (texts.map words) := by
  induction texts with
  | nil => rfl
  | cons t texts ih =>
      cases texts with
      | nil => rw [String.intercalate_singleton, List.map_singleton, List.intercalate_singleton]
      | cons u texts =>
          rw [String.intercalate_cons_cons, List.map_cons, List.map_cons,
            List.intercalate_cons_cons, ← List.map_cons, ← ih, String.append_assoc,
            String.append_assoc, String.append_assoc, words_append_space, words_append_space,
            words_of_isWord hsep, List.append_assoc]

/-- Splitting invents nothing. -/
theorem mem_of_mem_splitOnP {α : Type*} {p : α → Bool} {xs l : List α}
    (hl : l ∈ xs.splitOnP p) {a : α} (ha : a ∈ l) : a ∈ xs := by
  induction xs generalizing l with
  | nil =>
      rw [List.splitOnP_nil, List.mem_singleton] at hl
      exact hl ▸ ha
  | cons x xs ih =>
      rw [List.splitOnP_cons_eq_if_modifyHead] at hl
      split at hl
      · rcases List.mem_cons.mp hl with rfl | hl
        · cases ha
        · exact List.mem_cons_of_mem x (ih hl ha)
      · cases hsplit : xs.splitOnP p with
        | nil =>
            rw [hsplit] at hl
            cases hl
        | cons y ys =>
            rw [hsplit] at hl ih
            rcases List.mem_cons.mp hl with rfl | hl
            · rcases List.mem_cons.mp ha with rfl | ha
              · exact List.mem_cons_self
              · exact List.mem_cons_of_mem x (ih List.mem_cons_self ha)
            · exact List.mem_cons_of_mem x (ih (List.mem_cons_of_mem y hl) ha)

theorem mem_of_mem_words {text w : String} (hw : w ∈ words text) {c : Char} (hc : c ∈ w.toList) :
    c ∈ text.toList := by
  rw [words, List.mem_map] at hw
  obtain ⟨cs, hcs, rfl⟩ := hw
  rw [String.toList_ofList] at hc
  exact mem_of_mem_splitOnP (List.mem_filter.mp hcs).1 hc

theorem mem_intercalate {α : Type*} {sep : List α} {ls : List (List α)} {a : α}
    (h : a ∈ sep.intercalate ls) : a ∈ sep ∨ ∃ l ∈ ls, a ∈ l := by
  induction ls with
  | nil => cases h
  | cons l ls ih =>
      cases ls with
      | nil =>
          rw [List.intercalate_singleton] at h
          exact Or.inr ⟨l, List.mem_cons_self, h⟩
      | cons l' ls =>
          rw [List.intercalate_cons_cons, List.append_assoc, List.mem_append, List.mem_append] at h
          rcases h with h | h | h
          · exact Or.inr ⟨l, List.mem_cons_self, h⟩
          · exact Or.inl h
          · rcases ih h with hsep | ⟨x, hx, ha⟩
            · exact Or.inl hsep
            · exact Or.inr ⟨x, List.mem_cons_of_mem l hx, ha⟩

theorem mem_toList_intercalate {sep : String} {texts : List String} {c : Char}
    (h : c ∈ (sep.intercalate texts).toList) : c ∈ sep.toList ∨ ∃ t ∈ texts, c ∈ t.toList := by
  rw [String.toList_intercalate] at h
  rcases mem_intercalate h with hsep | ⟨cs, hcs, hc⟩
  · exact Or.inl hsep
  · obtain ⟨t, ht, rfl⟩ := List.mem_map.mp hcs
    exact Or.inr ⟨t, ht, hc⟩

/-! ## Placeholders -/

/-- The placeholder of an argument. -/
def placeholder (k : ℕ) : String := s!"${k}"

/-- A list of placeholders in parentheses. -/
def placeholderList (ks : List ℕ) : String := "(" ++ ",".intercalate (ks.map placeholder) ++ ")"

theorem toList_placeholder (k : ℕ) : (placeholder k).toList = '$' :: Nat.toDigits 10 k := by
  have hsplit : placeholder k = "$" ++ Nat.repr k := rfl
  rw [hsplit, String.toList_append, Nat.toList_repr]
  rfl

theorem isDigit_toDigits (k : ℕ) : ∀ c ∈ Nat.toDigits 10 k, c.isDigit = true := fun _ hc ↦
  Nat.isDigit_of_mem_toDigits (by decide) (by decide) hc

/-- A character that is neither the sign nor a digit does not occur in a placeholder. -/
theorem notMem_placeholder {c : Char} (hsign : c ≠ '$') (hdigit : c.isDigit = false) (k : ℕ) :
    c ∉ (placeholder k).toList := by
  rw [toList_placeholder, List.mem_cons, not_or]
  refine ⟨hsign, fun hc ↦ ?_⟩
  rw [isDigit_toDigits k c hc] at hdigit
  cases hdigit

/-- White space is neither. -/
theorem ne_of_isWhitespace {c : Char} (h : c.isWhitespace = true) :
    c ≠ '$' ∧ c.isDigit = false := by
  simp only [Char.isWhitespace, Bool.or_eq_true, decide_eq_true_eq] at h
  rcases h with ((rfl | rfl) | rfl) | rfl <;> decide

theorem isWord_placeholder (k : ℕ) : IsWord (placeholder k) := by
  refine ⟨?_, ?_⟩
  · rw [toList_placeholder]
    exact List.cons_ne_nil _ _
  · intro c hc
    by_contra hspace
    obtain ⟨hsign, hdigit⟩ := ne_of_isWhitespace (Bool.not_eq_false _ ▸ hspace)
    exact notMem_placeholder hsign hdigit k hc

/-- Read a placeholder. -/
def readPlaceholder (w : String) : Option ℕ :=
  match w.toList with
  | '$' :: ds =>
      if ds ≠ [] ∧ ds.all Char.isDigit = true then some (Nat.ofDigitChars 10 ds 0) else none
  | _ => none

theorem readPlaceholder_placeholder (k : ℕ) : readPlaceholder (placeholder k) = some k := by
  rw [readPlaceholder, toList_placeholder]
  simp only
  have hdigits : (Nat.toDigits 10 k).all Char.isDigit = true :=
    List.all_eq_true.mpr (isDigit_toDigits k)
  rw [if_pos ⟨Nat.toDigits_ne_nil, hdigits⟩, Nat.ofDigitChars_ten_toDigits]

/-- Read a list of placeholders. -/
def readPlaceholders (w : String) : Option (List ℕ) :=
  match w.toList with
  | '(' :: cs =>
      if cs.getLast? = some ')' then
        (cs.dropLast.splitOn ',').mapM fun c ↦ readPlaceholder (String.ofList c)
      else none
  | _ => none

theorem toList_placeholderList (ks : List ℕ) : (placeholderList ks).toList =
    '(' :: ([','].intercalate (ks.map fun k ↦ (placeholder k).toList) ++ [')']) := by
  rw [placeholderList, String.toList_append, String.toList_append, String.toList_intercalate,
    List.map_map]
  rfl

theorem readPlaceholders_placeholderList {ks : List ℕ} (hks : ks ≠ []) :
    readPlaceholders (placeholderList ks) = some ks := by
  have hcomma : ∀ w ∈ ks.map fun k ↦ (placeholder k).toList, ',' ∉ w := by
    intro w hw
    obtain ⟨k, -, rfl⟩ := List.mem_map.mp hw
    exact notMem_placeholder (by decide) (by decide) k
  rw [readPlaceholders, toList_placeholderList]
  simp only [List.getLast?_concat, if_true, List.dropLast_concat]
  rw [List.splitOn_intercalate _ hcomma (by simpa using hks)]
  clear hcomma hks
  induction ks with
  | nil => rfl
  | cons k ks ih =>
      rw [List.map_cons, List.mapM_cons, ih, String.ofList_toList, readPlaceholder_placeholder]
      rfl

/-- The placeholders in a word: what follows each sign, as far as there are digits. -/
def wordPlaceholders (w : String) : List ℕ :=
  (w.toList.splitOn '$').tail.map fun s ↦ Nat.ofDigitChars 10 (s.takeWhile Char.isDigit) 0

/-- The placeholders in a text, from left to right. -/
def placeholders (text : String) : List ℕ := (words text).flatMap wordPlaceholders

theorem splitOn_eq_singleton {cs : List Char} (h : '$' ∉ cs) : cs.splitOn '$' = [cs] := by
  apply List.splitOnP_eq_singleton
  intro c hc
  rw [beq_eq_false_iff_ne]
  rintro rfl
  exact h hc

theorem splitOn_append_sign {cs : List Char} (h : '$' ∉ cs) (ds : List Char) :
    (cs ++ '$' :: ds).splitOn '$' = cs :: ds.splitOn '$' := by
  rw [List.splitOn, List.splitOnP_append_cons _ _ (by decide), ← List.splitOn,
    splitOn_eq_singleton h]
  rfl

theorem notMem_toDigits (k : ℕ) : '$' ∉ Nat.toDigits 10 k := fun hc ↦
  absurd (isDigit_toDigits k '$' hc) (by decide)

theorem wordPlaceholders_eq_nil {w : String} (h : '$' ∉ w.toList) : wordPlaceholders w = [] := by
  rw [wordPlaceholders, splitOn_eq_singleton h]
  rfl

theorem wordPlaceholders_placeholder (k : ℕ) : wordPlaceholders (placeholder k) = [k] := by
  have hsplit : (placeholder k).toList.splitOn '$' = [[], Nat.toDigits 10 k] := by
    rw [toList_placeholder, ← List.nil_append ('$' :: _), splitOn_append_sign List.not_mem_nil,
      splitOn_eq_singleton (notMem_toDigits k)]
  rw [wordPlaceholders, hsplit, List.tail_cons, List.map_singleton,
    List.takeWhile_eq_self_iff.mpr (isDigit_toDigits k), Nat.ofDigitChars_ten_toDigits]

/-- The digits of a placeholder end where another character stands. -/
theorem ofDigitChars_takeWhile (k : ℕ) {c : Char} (hc : c.isDigit = false) :
    Nat.ofDigitChars 10 ((Nat.toDigits 10 k ++ [c]).takeWhile Char.isDigit) 0 = k := by
  rw [List.takeWhile_append_of_pos (isDigit_toDigits k), List.takeWhile_cons_of_neg (by simp [hc]),
    List.append_nil, Nat.ofDigitChars_ten_toDigits]

/-- Splitting a list of placeholders gives their digits, each with the character that follows. -/
theorem splitOn_placeholders (k : ℕ) (ks : List ℕ) (cs : List Char) (hcs : '$' ∉ cs) :
    ∃ ds, (cs ++ ([','].intercalate ((k :: ks).map fun k ↦ (placeholder k).toList) ++
        [')'])).splitOn '$' = cs :: ds ∧
      (ds.map fun s ↦ Nat.ofDigitChars 10 (s.takeWhile Char.isDigit) 0) = k :: ks := by
  induction ks generalizing k cs with
  | nil =>
      have hlast : '$' ∉ Nat.toDigits 10 k ++ [')'] := by
        rw [List.mem_append, not_or]
        exact ⟨notMem_toDigits k, by decide⟩
      refine ⟨[Nat.toDigits 10 k ++ [')']], ?_, ?_⟩
      · rw [List.map_singleton, List.intercalate_singleton, toList_placeholder, List.cons_append,
          splitOn_append_sign hcs, splitOn_eq_singleton hlast]
      · rw [List.map_singleton, ofDigitChars_takeWhile k (by decide)]
  | cons u ks ih =>
      have hnext : '$' ∉ Nat.toDigits 10 k ++ [','] := by
        rw [List.mem_append, not_or]
        exact ⟨notMem_toDigits k, by decide⟩
      obtain ⟨ds, hsplit, hds⟩ := ih u _ hnext
      refine ⟨(Nat.toDigits 10 k ++ [',']) :: ds, ?_, ?_⟩
      · rw [List.map_cons, List.map_cons, List.intercalate_cons_cons, toList_placeholder k,
          List.cons_append, List.cons_append, List.cons_append, List.append_assoc _ _ [')'],
          splitOn_append_sign hcs]
        exact congrArg (cs :: ·) hsplit
      · rw [List.map_cons, ofDigitChars_takeWhile k (by decide), hds]

theorem wordPlaceholders_placeholderList (ks : List ℕ) :
    wordPlaceholders (placeholderList ks) = ks := by
  cases ks with
  | nil => decide
  | cons k ks =>
      obtain ⟨ds, hsplit, hds⟩ := splitOn_placeholders k ks ['('] (by decide)
      rw [wordPlaceholders, toList_placeholderList, ← List.singleton_append, hsplit, List.tail_cons,
        hds]

theorem isWord_placeholderList (ks : List ℕ) : IsWord (placeholderList ks) := by
  rw [IsWord, toList_placeholderList]
  refine ⟨List.cons_ne_nil _ _, ?_⟩
  intro c hc
  rw [List.mem_cons, List.mem_append] at hc
  rcases hc with rfl | hc | hc
  · decide
  · rcases mem_intercalate hc with hcomma | ⟨w, hw, hc⟩
    · rw [List.mem_singleton.mp hcomma]
      decide
    · obtain ⟨k, -, rfl⟩ := List.mem_map.mp hw
      exact (isWord_placeholder k).2 c hc
  · rw [List.mem_singleton.mp hc]
    decide

/-! ## Conditions -/

/-- A condition on the rows of a table. -/
inductive Cond
  | eq (column : String) (param : ℕ)
  | among (column : String) (params : List ℕ)
deriving DecidableEq, Repr

namespace Cond

/-- The column that a condition is about. -/
def column : Cond → String
  | eq column _ | among column _ => column

/-- The placeholders that it uses. -/
def params : Cond → List ℕ
  | eq _ k => [k]
  | among _ ks => ks

/-- How it is spelled. -/
def words : Cond → List String
  | eq column k => [column, "=", placeholder k]
  | among column ks => [column, "IN", placeholderList ks]

/-- Read one condition. -/
def read (column op param : String) : Option Cond :=
  if op = "=" then (readPlaceholder param).map (eq column)
  else if op = "IN" then (readPlaceholders param).map (among column)
  else none

/-- Read conditions as long as there is an AND between them. -/
def readAll : List String → Option (List Cond × List String)
  | [column, op, param] => (read column op param).map fun c ↦ ([c], [])
  | column :: op :: param :: next :: rest =>
      if next = "AND" then
        (read column op param).bind fun c ↦ (readAll rest).map fun r ↦ (c :: r.1, r.2)
      else (read column op param).map fun c ↦ ([c], next :: rest)
  | _ => none

/-- A list after IN is not empty. -/
def Proper (c : Cond) : Prop := c.params ≠ []

/-- Reading what is spelled. -/
theorem exists_words {c : Cond} (hc : c.Proper) :
    ∃ op param, c.words = [c.column, op, param] ∧ read c.column op param = some c := by
  cases c with
  | eq column k =>
      refine ⟨"=", placeholder k, rfl, ?_⟩
      rw [read, if_pos rfl, readPlaceholder_placeholder]
      rfl
  | among column ks =>
      refine ⟨"IN", placeholderList ks, rfl, ?_⟩
      have hks : ks ≠ [] := hc
      rw [read, if_neg (by decide), if_pos rfl, readPlaceholders_placeholderList hks]
      rfl

theorem readAll_words {conds : List Cond} (hne : conds ≠ []) (hproper : ∀ c ∈ conds, c.Proper)
    {rest : List String} (hrest : rest.head? ≠ some "AND") :
    readAll (["AND"].intercalate (conds.map words) ++ rest) = some (conds, rest) := by
  induction conds with
  | nil => exact absurd rfl hne
  | cons c conds ih =>
      rw [List.forall_mem_cons] at hproper
      obtain ⟨op, param, hwords, hread⟩ := exists_words hproper.1
      cases conds with
      | nil =>
          rw [List.map_singleton, List.intercalate_singleton, hwords]
          cases rest with
          | nil => simp [readAll, hread]
          | cons next rest =>
              have hnext : next ≠ "AND" := fun h ↦ hrest (by rw [h]; rfl)
              simp [readAll, hread, hnext]
      | cons d conds =>
          have htail := ih (List.cons_ne_nil d conds) hproper.2
          rw [List.map_cons] at htail
          rw [List.map_cons, List.map_cons, List.intercalate_cons_cons, hwords]
          simp [readAll, hread, htail]

theorem flatMap_words {c : Cond} (hcolumn : '$' ∉ c.column.toList) :
    c.words.flatMap wordPlaceholders = c.params := by
  have hnone := wordPlaceholders_eq_nil hcolumn
  have hop : wordPlaceholders "=" = [] ∧ wordPlaceholders "IN" = [] := by decide
  cases c with
  | eq col k =>
      change wordPlaceholders col = [] at hnone
      simp [words, hnone, hop.1, wordPlaceholders_placeholder, params]
  | among col ks =>
      change wordPlaceholders col = [] at hnone
      simp [words, hnone, hop.2, wordPlaceholders_placeholderList, params]

end Cond

/-! ## Statements -/

/-- A statement. -/
structure Select where
  table : String
  conds : List Cond
  /-- The column by which the rows are ordered, the largest first. -/
  orderBy : String
  /-- The placeholder of the number of rows to be returned. -/
  limit : Option ℕ
deriving DecidableEq, Repr

namespace Select

/-- How the conditions are spelled. -/
def whereWords (conds : List Cond) : List String :=
  if conds = [] then [] else "WHERE" :: ["AND"].intercalate (conds.map Cond.words)

/-- How the limit is spelled. -/
def limitWords : Option ℕ → List String
  | none => []
  | some k => ["LIMIT", placeholder k]

/-- How a statement is spelled, with the words of its list of columns. -/
def words (columns : List String) (q : Select) : List String :=
  "SELECT" :: (columns ++ "FROM" :: q.table :: (whereWords q.conds ++
    "ORDER" :: "BY" :: q.orderBy :: "DESC" :: limitWords q.limit))

/-- Read the limit. -/
def readLimit : List String → Option (Option ℕ)
  | [] => some none
  | [w, param] => if w = "LIMIT" then (readPlaceholder param).map some else none
  | _ => none

/-- Read the order and what follows. -/
def readOrder (table : String) (conds : List Cond) : List String → Option Select
  | w :: w' :: column :: w'' :: rest =>
      if w = "ORDER" ∧ w' = "BY" ∧ w'' = "DESC" then
        (readLimit rest).map fun limit ↦ ⟨table, conds, column, limit⟩
      else none
  | _ => none

/-- Read the conditions and what follows. -/
def readWhere (table : String) : List String → Option Select
  | [] => none
  | w :: rest =>
      if w = "WHERE" then (Cond.readAll rest).bind fun r ↦ readOrder table r.1 r.2
      else readOrder table [] (w :: rest)

/-- Read the table and what follows. -/
def readFrom : List String → Option Select
  | w :: table :: rest => if w = "FROM" then readWhere table rest else none
  | _ => none

/-- Read a statement.  The list of columns ends at the first FROM. -/
def read (text : String) : Option Select :=
  match Lib.words text with
  | [] => none
  | w :: rest => if w = "SELECT" then readFrom (rest.dropWhile (· ≠ "FROM")) else none

/-- The placeholders that a statement uses, from left to right. -/
def params (q : Select) : List ℕ := q.conds.flatMap Cond.params ++ q.limit.toList

theorem readLimit_words (limit : Option ℕ) : readLimit (limitWords limit) = some limit := by
  cases limit with
  | none => rfl
  | some k =>
      rw [limitWords, readLimit, if_pos rfl, readPlaceholder_placeholder]
      rfl

theorem readOrder_words (table : String) (conds : List Cond) (column : String) (limit : Option ℕ) :
    readOrder table conds ("ORDER" :: "BY" :: column :: "DESC" :: limitWords limit) =
      some ⟨table, conds, column, limit⟩ := by
  rw [readOrder, if_pos ⟨rfl, rfl, rfl⟩, readLimit_words]
  rfl

theorem readWhere_words (q : Select) (hproper : ∀ c ∈ q.conds, c.Proper) :
    readWhere q.table (whereWords q.conds ++
      "ORDER" :: "BY" :: q.orderBy :: "DESC" :: limitWords q.limit) = some q := by
  rw [whereWords]
  split
  · rename_i hnone
    rw [List.nil_append, readWhere, if_neg (by decide), readOrder_words, ← hnone]
  · rename_i hsome
    rw [List.cons_append, readWhere, if_pos rfl,
      Cond.readAll_words hsome hproper (by rw [List.head?_cons]; decide)]
    exact readOrder_words _ _ _ _

/-- **A text is read as the statement that it spells.** -/
theorem read_of_words {text : String} {columns : List String} {q : Select}
    (htext : Lib.words text = q.words columns) (hcolumns : "FROM" ∉ columns)
    (hproper : ∀ c ∈ q.conds, c.Proper) : read text = some q := by
  have hdrop : ∀ rest, (columns ++ "FROM" :: rest).dropWhile (· ≠ "FROM") = "FROM" :: rest := by
    intro rest
    rw [List.dropWhile_append_of_pos, List.dropWhile_cons_of_neg (by simp)]
    intro w hw
    rw [decide_eq_true_eq]
    rintro rfl
    exact hcolumns hw
  rw [read, htext, words]
  simp only [if_true, hdrop]
  exact readWhere_words q hproper

theorem flatMap_whereWords {conds : List Cond} (hconds : ∀ c ∈ conds, '$' ∉ c.column.toList) :
    (whereWords conds).flatMap wordPlaceholders = conds.flatMap Cond.params := by
  have hall : (["AND"].intercalate (conds.map Cond.words)).flatMap wordPlaceholders =
      conds.flatMap Cond.params := by
    induction conds with
    | nil => rfl
    | cons c conds ih =>
        rw [List.forall_mem_cons] at hconds
        have hc := Cond.flatMap_words hconds.1
        cases conds with
        | nil => simpa using hc
        | cons d conds =>
            have hand : wordPlaceholders "AND" = [] := by decide
            rw [List.map_cons, List.map_cons, List.intercalate_cons_cons, ← List.map_cons,
              List.flatMap_append, List.flatMap_append, ih hconds.2, hc, List.flatMap_singleton,
              hand, List.append_nil]
            exact List.flatMap_cons.symm
  have hwhere : wordPlaceholders "WHERE" = [] := by decide
  rw [whereWords]
  split
  · rename_i hnone
    rw [hnone]
    rfl
  · rw [List.flatMap_cons, hwhere, List.nil_append, hall]

theorem flatMap_limitWords (limit : Option ℕ) :
    (limitWords limit).flatMap wordPlaceholders = limit.toList := by
  cases limit with
  | none => rfl
  | some k =>
      have hlimit : wordPlaceholders "LIMIT" = [] := by decide
      rw [limitWords, List.flatMap_cons, hlimit, List.flatMap_singleton,
        wordPlaceholders_placeholder]
      rfl

/-- **The placeholders of a text** are those of the statement that it spells, when no name contains
the sign. -/
theorem placeholders_of_words {text : String} {columns : List String} {q : Select}
    (htext : Lib.words text = q.words columns) (hcolumns : ∀ w ∈ columns, '$' ∉ w.toList)
    (htable : '$' ∉ q.table.toList) (horder : '$' ∉ q.orderBy.toList)
    (hconds : ∀ c ∈ q.conds, '$' ∉ c.column.toList) : placeholders text = q.params := by
  have hkeyword : ∀ w ∈ ["SELECT", "FROM", "ORDER", "BY", "DESC"], wordPlaceholders w = [] := by
    decide
  have hnames : columns.flatMap wordPlaceholders = [] :=
    List.flatMap_eq_nil_iff.mpr fun w hw ↦ wordPlaceholders_eq_nil (hcolumns w hw)
  rw [placeholders, htext, words, params]
  simp only [List.flatMap_cons, List.flatMap_append, hnames, flatMap_whereWords hconds,
    flatMap_limitWords, wordPlaceholders_eq_nil htable, wordPlaceholders_eq_nil horder,
    hkeyword "SELECT" (by decide), hkeyword "FROM" (by decide), hkeyword "ORDER" (by decide),
    hkeyword "BY" (by decide), hkeyword "DESC" (by decide), List.nil_append]

end Select

/-! ## Meaning -/

/-- The table that a statement is evaluated on: its name, its columns, and what ORDER BY and LIMIT
make of their values. -/
structure Schema (ρ V : Type*) where
  name : String
  column : String → Option (ρ → V)
  le : V → V → Prop
  count : V → Option ℕ

variable {ρ V : Type*}

/-- The argument that a placeholder stands for; they are numbered from 1. -/
def argument (args : List V) (k : ℕ) : Option V := if k = 0 then none else args[k - 1]?

/-- Arguments that are added behind do not matter to the placeholders that are there. -/
theorem argument_append {args : List V} (more : List V) {k : ℕ} (hk : k ≤ args.length) :
    argument (args ++ more) k = argument args k := by
  rw [argument, argument]
  split
  · rfl
  · rw [List.getElem?_append_left (by omega)]

/-- The next argument. -/
theorem argument_next (args : List V) (v : V) (more : List V) :
    argument (args ++ v :: more) (args.length + 1) = some v := by
  rw [argument, if_neg (Nat.succ_ne_zero _), Nat.add_sub_cancel, List.getElem?_append_right le_rfl,
    Nat.sub_self]
  rfl

/-- A placeholder that is in use has an argument. -/
theorem isSome_argument {args : List V} {k : ℕ} (hk : k ∈ List.range' 1 args.length) :
    (argument args k).isSome = true := by
  rw [List.mem_range'_1] at hk
  rw [argument, if_neg (by omega), List.getElem?_eq_getElem (by omega)]
  rfl

/-- Among the arguments of the placeholders that were numbered in one go. -/
theorem exists_argument_iff (args vs more : List V) (v : V) :
    (∃ k ∈ List.range' (args.length + 1) vs.length, argument (args ++ (vs ++ more)) k = some v) ↔
      v ∈ vs := by
  induction vs generalizing args with
  | nil => simp
  | cons u vs ih =>
      have htail := ih (args ++ [u])
      rw [List.length_append, List.length_singleton, List.append_assoc, List.singleton_append]
        at htail
      rw [List.length_cons, List.range'_succ, List.cons_append]
      simp only [List.mem_cons, exists_eq_or_imp]
      rw [argument_next, htail, Option.some.injEq, eq_comm]

namespace Cond

/-- The column is there, and so are the arguments. -/
def Bound (S : Schema ρ V) (args : List V) (c : Cond) : Prop :=
  (S.column c.column).isSome = true ∧ ∀ k ∈ c.params, (argument args k).isSome = true

/-- Whether a row satisfies a condition. -/
def holds [DecidableEq V] (S : Schema ρ V) (args : List V) (r : ρ) : Cond → Bool
  | eq column k => (S.column column).any fun f ↦ argument args k = some (f r)
  | among column ks => (S.column column).any fun f ↦ ks.any fun k ↦ argument args k = some (f r)

end Cond

namespace Select

/-- The first rows, as many as the limit says, or all. -/
def Cut (S : Schema ρ V) (args : List V) (sorted out : List ρ) : Option ℕ → Prop
  | none => out = sorted
  | some k => ∃ v n, argument args k = some v ∧ S.count v = some n ∧ out = sorted.take n

/-- `q.Returns S args rows out`: on a table with these rows, and with these arguments for its
placeholders, the statement may return `out`. -/
def Returns [DecidableEq V] (S : Schema ρ V) (args : List V) (rows : List ρ) (q : Select)
    (out : List ρ) : Prop :=
  q.table = S.name ∧ (∀ c ∈ q.conds, c.Bound S args) ∧
    ∃ key, S.column q.orderBy = some key ∧
      ∃ sorted, sorted.Perm (rows.filter fun r ↦ q.conds.all (Cond.holds S args r)) ∧
        sorted.Pairwise (fun a b ↦ S.le (key b) (key a)) ∧ Cut S args sorted out q.limit

end Select

end GpuScheduler.Lib
