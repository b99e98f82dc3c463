import ConstraintEval.Settings
import Mathlib.Data.List.Forall2
import Mathlib.Data.List.Induction
import Mathlib.Data.List.TakeWhile
import Mathlib.Data.Nat.Digits.Defs

/-!
# What settings mean

The limit on nesting is read from a text of which the blanks at the ends do not count. What is left
is the word for having no limit, in any mixture of small letters and capitals, or a number that is
written with decimal digits after an optional plus sign. The texts that are limits are described
here by how they are written, and it is shown that just those are read, and as what.
-/

namespace ConstraintEval

/-! ### Blank ends -/

/-- A text is what is left of another one without the blanks at both of its ends. -/
def Trims (text t : String) : Prop :=
  ∃ front back : List Char, text.toList = front ++ t.toList ++ back ∧
    (∀ c ∈ front, isBlank c = true) ∧ (∀ c ∈ back, isBlank c = true) ∧
    (∀ c ∈ t.toList.head?, isBlank c = false) ∧ ∀ c ∈ t.toList.getLast?, isBlank c = false

section Blanks

variable {cs ts front back : List Char} {text t : String}

private theorem dropWhile_blank (blank : ∀ c ∈ front, isBlank c = true)
    (first : ∀ c ∈ cs.head?, isBlank c = false) : (front ++ cs).dropWhile isBlank = cs := by
  rw [List.dropWhile_append_of_pos blank]
  cases cs with
  | nil => rfl
  | cons c cs => rw [List.dropWhile_cons_of_neg (by simp [first c rfl])]

private theorem head?_dropWhile (cs : List Char) :
    ∀ c ∈ (cs.dropWhile isBlank).head?, isBlank c = false := by
  intro c mem
  have first := List.head?_dropWhile_not isBlank cs
  rw [Option.mem_def.1 mem] at first
  exact first

theorem trimBlanks_append (front' : ∀ c ∈ front, isBlank c = true)
    (back' : ∀ c ∈ back, isBlank c = true) (first : ∀ c ∈ ts.head?, isBlank c = false)
    (last : ∀ c ∈ ts.getLast?, isBlank c = false) : trimBlanks (front ++ ts ++ back) = ts := by
  by_cases none : ts = []
  · subst none
    have blank : ∀ c ∈ front ++ back, isBlank c = true := List.forall_mem_append.2 ⟨front', back'⟩
    have dropped : (front ++ back ++ []).dropWhile isBlank = [] := dropWhile_blank blank nofun
    rw [List.append_nil] at dropped ⊢
    rw [trimBlanks, dropped]
    rfl
  · have first' : ∀ c ∈ (ts ++ back).head?, isBlank c = false := by
      rwa [List.head?_append_of_ne_nil _ none]
    have back'' : ∀ c ∈ back.reverse, isBlank c = true := by simpa using back'
    have last' : ∀ c ∈ ts.reverse.head?, isBlank c = false := by simpa using last
    rw [trimBlanks, List.append_assoc, dropWhile_blank front' first', List.reverse_append,
      dropWhile_blank back'' last', List.reverse_reverse]

theorem trims_trimmed (text : String) : Trims text (trimmed text) := by
  let rest := text.toList.dropWhile isBlank
  have front : text.toList = text.toList.takeWhile isBlank ++ rest :=
    List.takeWhile_append_dropWhile.symm
  have back : rest = (rest.reverse.dropWhile isBlank).reverse ++
      (rest.reverse.takeWhile isBlank).reverse := by
    rw [← List.reverse_append, List.takeWhile_append_dropWhile, List.reverse_reverse]
  have kept : (trimmed text).toList = (rest.reverse.dropWhile isBlank).reverse :=
    String.toList_ofList
  refine ⟨text.toList.takeWhile isBlank, (rest.reverse.takeWhile isBlank).reverse, ?_,
    fun c mem ↦ List.mem_takeWhile_imp mem,
    fun c mem ↦ List.mem_takeWhile_imp (List.mem_reverse.1 mem), fun c mem ↦ ?_, ?_⟩
  · rw [List.append_assoc, kept, ← back]
    exact front
  · refine head?_dropWhile text.toList c ?_
    change c ∈ rest.head?
    rw [kept] at mem
    rw [back]
    exact List.mem_head?_append_of_mem_head? mem
  · rw [kept, List.getLast?_reverse]
    exact head?_dropWhile rest.reverse

/-- A text without blank ends is what is left of a text exactly if it is what trimming gives. -/
theorem trims_iff : Trims text t ↔ trimmed text = t := by
  constructor
  · rintro ⟨front, back, split, front', back', first, last⟩
    rw [trimmed, split, trimBlanks_append front' back' first last, String.ofList_toList]
  · rintro rfl
    exact trims_trimmed text

end Blanks

/-! ### Words -/

/-- A text is a word in small letters, any of which may be written as capitals. -/
def WritesWord (text word : String) : Prop :=
  List.Forall₂ (fun c d ↦ c = d ∨ c.toNat + 32 = d.toNat) text.toList word.toList

/-- The codes of capitals are 32 below those of the small letters, which are from 97 to 122. -/
private theorem toLower_eq_iff {c d : Char} (small : 97 ≤ d.toNat ∧ d.toNat ≤ 122) :
    c.toLower = d ↔ c = d ∨ c.toNat + 32 = d.toNat := by
  unfold Char.toLower
  split
  · next capital =>
    have capital' : 65 ≤ c.toNat ∧ c.toNat ≤ 90 := by
      simpa [UInt32.le_iff_toNat_le] using capital
    have lowered : (c.val + ('a'.val - 'A'.val)).toNat = c.toNat + 32 := by
      rw [UInt32.toNat_add, Char.toNat_val]
      exact Nat.mod_eq_of_lt (by simp; omega)
    rw [← Char.toNat_inj, ← Char.toNat_inj, Char.toNat_mk, lowered]
    omega
  · next other =>
    have other' : ¬(65 ≤ c.toNat ∧ c.toNat ≤ 90) := by
      simpa [UInt32.le_iff_toNat_le] using other
    rw [← Char.toNat_inj]
    omega

private theorem map_toLower_eq_iff {cs ds : List Char}
    (small : ∀ d ∈ ds, 97 ≤ d.toNat ∧ d.toNat ≤ 122) :
    cs.map Char.toLower = ds ↔
      List.Forall₂ (fun c d ↦ c = d ∨ c.toNat + 32 = d.toNat) cs ds := by
  induction ds generalizing cs with
  | nil => cases cs <;> simp
  | cons d ds ih =>
    obtain ⟨first, rest⟩ := List.forall_mem_cons.1 small
    cases cs with
    | nil => simp
    | cons c cs =>
      rw [List.map_cons, List.cons.injEq, List.forall₂_cons, toLower_eq_iff first, ih rest]

theorem Settings.isUnlimited_iff {text : String} :
    isUnlimited text = true ↔ WritesWord text "unlimited" := by
  rw [isUnlimited, beq_iff_eq]
  have small : "unlimited".toList.all (fun d ↦ 97 ≤ d.toNat ∧ d.toNat ≤ 122) = true := by decide
  exact map_toLower_eq_iff fun d mem ↦ of_decide_eq_true (List.all_eq_true.1 small d mem)

/-! ### Numbers -/

/-- A text is a number in decimal digits, with or without a plus sign in front. -/
def WritesNumber (text : String) (n : Nat) : Prop :=
  ∃ ds : List Nat, ds ≠ [] ∧ (∀ d ∈ ds, d < 10) ∧ Nat.ofDigits 10 ds.reverse = n ∧
    (text.toList = ds.map Nat.digitChar ∨ text.toList = '+' :: ds.map Nat.digitChar)

private theorem digitChar_toNat {c : Char} (digit : c.isDigit = true) :
    c.toNat - 48 < 10 ∧ Nat.digitChar (c.toNat - 48) = c := by
  obtain ⟨low, high⟩ : 48 ≤ c.toNat ∧ c.toNat ≤ 57 := Char.isDigit_iff_toNat.1 digit
  have lt : c.toNat - 48 < 10 := by omega
  refine ⟨lt, Char.toNat_inj.1 ?_⟩
  rw [Nat.toNat_digitChar_of_lt_ten lt]
  omega

private theorem ofDigitChars_map {ds : List Nat} (digits : ∀ d ∈ ds, d < 10) :
    Nat.ofDigitChars 10 (ds.map Nat.digitChar) 0 = Nat.ofDigits 10 ds.reverse := by
  induction ds using List.reverseRecOn with
  | nil => rfl
  | append_singleton ds d ih =>
    obtain ⟨digits, digit⟩ := List.forall_mem_append.1 digits
    have lt : d < 10 := digit d (List.mem_singleton_self d)
    rw [List.map_append, Nat.ofDigitChars_append, ih digits, List.reverse_concat, Nat.ofDigits_cons,
      List.map_singleton, Nat.ofDigitChars_cons_digitChar_of_lt_ten lt, Nat.ofDigitChars_nil,
      Nat.add_comm]

theorem decimal?_eq_some_iff {cs : List Char} {n : Nat} : decimal? cs = some n ↔
    ∃ ds : List Nat, ds ≠ [] ∧ (∀ d ∈ ds, d < 10) ∧ Nat.ofDigits 10 ds.reverse = n ∧
      cs = ds.map Nat.digitChar := by
  unfold decimal?
  constructor
  · intro read
    split at read
    · cases read
    · next written =>
      simp only [Bool.or_eq_true, List.isEmpty_iff, Bool.not_eq_true', not_or,
        Bool.not_eq_false] at written
      obtain ⟨nonempty, digits⟩ := written
      have digits (c : Char) (mem : c ∈ cs) := digitChar_toNat (List.all_eq_true.1 digits c mem)
      have lt : ∀ d ∈ cs.map (·.toNat - 48), d < 10 :=
        List.forall_mem_map.2 fun c mem ↦ (digits c mem).1
      have same : cs = (cs.map (·.toNat - 48)).map Nat.digitChar := by
        rw [List.map_map]
        exact (List.map_congr_left (fun c mem ↦ (digits c mem).2)).trans (List.map_id cs) |>.symm
      refine ⟨_, by simpa using nonempty, lt, ?_, same⟩
      rw [← ofDigitChars_map lt, ← same]
      exact Option.some.inj read
  · rintro ⟨ds, nonempty, digits, value, rfl⟩
    have written : ((ds.map Nat.digitChar).isEmpty || !(ds.map Nat.digitChar).all Char.isDigit) =
        false := by
      simpa [nonempty] using digits
    rw [written, ofDigitChars_map digits, value]
    rfl

private theorem natural?_of_no_sign {cs : List Char} (unsigned : cs.head? ≠ some '+') :
    natural? cs = decimal? cs := by
  unfold natural?
  split
  · exact (unsigned rfl).elim
  · rfl

theorem natural?_eq_some_iff {text : String} {n : Nat} :
    natural? text.toList = some n ↔ WritesNumber text n := by
  constructor
  · intro read
    unfold natural? at read
    split at read
    · next cs signed =>
      obtain ⟨ds, nonempty, digits, value, rfl⟩ := decimal?_eq_some_iff.1 read
      exact ⟨ds, nonempty, digits, value, .inr signed⟩
    · obtain ⟨ds, nonempty, digits, value, written⟩ := decimal?_eq_some_iff.1 read
      exact ⟨ds, nonempty, digits, value, .inl written⟩
  · rintro ⟨ds, nonempty, digits, value, written⟩
    have read := decimal?_eq_some_iff.2 ⟨ds, nonempty, digits, value, rfl⟩
    rcases written with written | written
    · have unsigned : text.toList.head? ≠ some '+' := by
        rw [written]
        cases ds with
        | nil => exact (nonempty rfl).elim
        | cons d ds => simp
      rw [natural?_of_no_sign unsigned, written, read]
    · rw [written, natural?_plus_cons, read]

/-- A text is one number at most. -/
theorem WritesNumber.unique {text : String} {n k : Nat} (h : WritesNumber text n)
    (h' : WritesNumber text k) : n = k :=
  Option.some.inj ((natural?_eq_some_iff.2 h).symm.trans (natural?_eq_some_iff.2 h'))

/-! ### Settings -/

namespace Settings

variable {text : String} {valueOf : String → Option String}

/-- A text is a number that can be a limit. -/
def WritesLimit (text : String) (n : Nat) : Prop := WritesNumber text n ∧ 1 ≤ n ∧ n ≤ 2 ^ 64 - 1

private theorem bounded_iff {n : Nat} : 0 < n ∧ n < depthBound ↔ 1 ≤ n ∧ n ≤ 2 ^ 64 - 1 := by
  unfold depthBound
  omega

/-- The word for no limit begins with a letter, and a number with a digit or a plus sign. -/
private theorem not_writesNumber (unlimited : WritesWord text "unlimited") (n : Nat) :
    ¬WritesNumber text n := by
  obtain ⟨c, cs, letter, -, word⟩ := List.forall₂_cons_right_iff.1
    (show List.Forall₂ _ text.toList ('u' :: "nlimited".toList) from unlimited)
  have letter' : c.toNat = 117 ∨ c.toNat = 85 := by
    rcases letter with rfl | capital
    · exact .inl rfl
    · exact .inr (Nat.add_right_cancel capital)
  rintro ⟨ds, nonempty, digits, -, written | written⟩
  · obtain ⟨d, ds, rfl⟩ := List.exists_cons_of_ne_nil nonempty
    have first : c = d.digitChar := (List.cons.inj (word.symm.trans written)).1
    have value := Nat.toNat_digitChar_of_lt_ten (digits d List.mem_cons_self)
    have lt := digits d List.mem_cons_self
    rw [← first] at value
    omega
  · have first : c = '+' := (List.cons.inj (word.symm.trans written)).1
    rw [first] at letter'
    exact absurd letter' (by decide)

/-- What a text is read as: no limit, a number, or neither. -/
theorem readDepth_cases (text : String) :
    WritesWord text "unlimited" ∧ readDepth text = .ok none ∨
    ¬WritesWord text "unlimited" ∧ (∃ n, WritesLimit text n ∧ readDepth text = .ok (some n)) ∨
    ¬WritesWord text "unlimited" ∧ (∀ n, ¬WritesLimit text n) ∧
      readDepth text = .error (depthError text) := by
  unfold readDepth
  by_cases unlimited : isUnlimited text = true
  · exact .inl ⟨isUnlimited_iff.1 unlimited, by rw [if_pos unlimited]⟩
  rw [if_neg unlimited, ← isUnlimited_iff]
  refine .inr ?_
  cases read : natural? text.toList with
  | none =>
    refine .inr ⟨unlimited, fun n written ↦ ?_, rfl⟩
    cases read.symm.trans (natural?_eq_some_iff.2 written.1)
  | some n =>
    by_cases bounded : 0 < n ∧ n < depthBound
    · refine .inl ⟨unlimited, n, ⟨natural?_eq_some_iff.1 read, bounded_iff.1 bounded⟩, ?_⟩
      simp only [if_pos bounded]
    · refine .inr ⟨unlimited, fun k written ↦ bounded (bounded_iff.2 ?_), ?_⟩
      · cases read.symm.trans (natural?_eq_some_iff.2 written.1)
        exact written.2
      · simp only [if_neg bounded]

theorem readDepth_eq_none_iff : readDepth text = .ok none ↔ WritesWord text "unlimited" := by
  obtain ⟨unlimited, read⟩ | ⟨limited, n, -, read⟩ | ⟨limited, -, read⟩ := readDepth_cases text
  · exact iff_of_true read unlimited
  · exact iff_of_false (by simp [read]) limited
  · exact iff_of_false (by simp [read]) limited

theorem readDepth_eq_some_iff {n : Nat} :
    readDepth text = .ok (some n) ↔ WritesLimit text n := by
  obtain ⟨unlimited, read⟩ | ⟨-, k, limit, read⟩ | ⟨-, none, read⟩ := readDepth_cases text
  · exact iff_of_false (by simp [read]) fun limit ↦ not_writesNumber unlimited n limit.1
  · rw [read, Except.ok.injEq, Option.some.injEq]
    exact ⟨fun same ↦ same ▸ limit, fun limit' ↦ limit.1.unique limit'.1⟩
  · exact iff_of_false (by simp [read]) (none n)

theorem readDepth_eq_error_iff {err : SettingError} : readDepth text = .error err ↔
    ¬WritesWord text "unlimited" ∧ (∀ n, ¬WritesLimit text n) ∧ err = depthError text := by
  obtain ⟨unlimited, read⟩ | ⟨-, n, limit, read⟩ | ⟨limited, none, read⟩ := readDepth_cases text
  · exact iff_of_false (by simp [read]) fun h ↦ h.1 unlimited
  · exact iff_of_false (by simp [read]) fun h ↦ h.2.1 n limit
  · rw [read, Except.error.injEq, eq_comm]
    exact ⟨fun same ↦ ⟨limited, none, same⟩, fun h ↦ h.2.2⟩

/-- What is traced, unless that is blank. -/
def filterOf (valueOf : String → Option String) : Option String :=
  (valueOf traceName).filter fun text ↦ !(trimmed text).isEmpty

/-- The limit on nesting that some values set. -/
def depthOf (valueOf : String → Option String) : Except SettingError (Option Nat) :=
  match valueOf depthName with
  | some text => readDepth (trimmed text)
  | none => .ok (some 64)

/-- The two settings are read apart from each other. -/
theorem read_eq_map (valueOf : String → Option String) :
    read valueOf = (depthOf valueOf).map fun depth ↦ ⟨depth, filterOf valueOf⟩ := by
  simp only [read, depthOf]
  cases valueOf depthName with
  | none => rfl
  | some text =>
    simp only
    cases readDepth (trimmed text) <;> rfl

private theorem depthLimit_iff {depth : Option Nat} :
    (∃ s, read valueOf = .ok s ∧ s.depthLimit = depth) ↔ depthOf valueOf = .ok depth := by
  rw [read_eq_map]
  cases depthOf valueOf <;> simp [Except.map]

private theorem read_eq_error_iff {err : SettingError} :
    read valueOf = .error err ↔ depthOf valueOf = .error err := by
  rw [read_eq_map]
  cases depthOf valueOf <;> simp [Except.map]

private theorem traceFilter_of_read {s : Settings} (found : read valueOf = .ok s) :
    s.traceFilter = filterOf valueOf := by
  rw [read_eq_map] at found
  cases depth : depthOf valueOf <;> rw [depth] at found <;> cases found
  rfl

private theorem filterOf_eq_some_iff {filter : String} : filterOf valueOf = some filter ↔
    valueOf traceName = some filter ∧ ∃ c ∈ filter.toList, isBlank c = false := by
  have blank : (trimmed filter).isEmpty = true ↔ ∀ c ∈ filter.toList, isBlank c = true := by
    rw [String.isEmpty_iff, ← trims_iff]
    constructor
    · rintro ⟨front, back, split, front', back', -⟩
      rw [split, String.toList_empty, List.append_nil]
      exact List.forall_mem_append.2 ⟨front', back'⟩
    · exact fun all ↦ ⟨filter.toList, [], by simp, all, nofun, nofun, nofun⟩
  rw [filterOf, Option.filter_eq_some_iff, Bool.not_eq_true', ← Bool.not_eq_true, blank]
  simp

/-- The settings are read from the values of two names. Without a value the limit on nesting is
64. Otherwise just one text is what is left of the value without the blanks at its ends, and there
is no limit exactly if this text is the word for that, in small letters or capitals, the limit is
`n` exactly if it is the number `n` in decimal digits, with or without a plus sign, from 1 to the
greatest of 64 bits, and in all other cases the text is an error. Where the settings can be read,
what is traced is the value of the other name as it is, if it is not all blank. -/
theorem read_exact (valueOf : String → Option String) :
    (valueOf "ZINC_MAX_EVAL_DEPTH" = none → ∃ s, read valueOf = .ok s ∧ s.depthLimit = some 64) ∧
    (∀ text, valueOf "ZINC_MAX_EVAL_DEPTH" = some text → ∃ t, (∀ t', Trims text t' ↔ t' = t) ∧
      ((∃ s, read valueOf = .ok s ∧ s.depthLimit = none) ↔ WritesWord t "unlimited") ∧
      (∀ n, (∃ s, read valueOf = .ok s ∧ s.depthLimit = some n) ↔
        WritesNumber t n ∧ 1 ≤ n ∧ n ≤ 2 ^ 64 - 1) ∧
      ∀ err, read valueOf = .error err ↔ ¬WritesWord t "unlimited" ∧
        (∀ n, WritesNumber t n → ¬(1 ≤ n ∧ n ≤ 2 ^ 64 - 1)) ∧
        err = ⟨"ZINC_MAX_EVAL_DEPTH", t, "a positive integer or `unlimited`"⟩) ∧
    ∀ s, read valueOf = .ok s → ∀ filter, s.traceFilter = some filter ↔
      valueOf "ZINC_LOG" = some filter ∧ ∃ c ∈ filter.toList, isBlank c = false := by
  refine ⟨fun absent ↦ ?_, fun text present ↦ ?_, fun s found filter ↦ ?_⟩
  · have usual : depthOf valueOf = .ok (some 64) := by
      rw [depthOf, show valueOf depthName = none from absent]
    exact depthLimit_iff.2 usual
  · have given : depthOf valueOf = readDepth (trimmed text) := by
      rw [depthOf, show valueOf depthName = some text from present]
    refine ⟨trimmed text, fun t' ↦ trims_iff.trans eq_comm, ?_, fun n ↦ ?_, fun err ↦ ?_⟩
    · rw [depthLimit_iff, given, readDepth_eq_none_iff]
    · rw [depthLimit_iff, given, readDepth_eq_some_iff, WritesLimit]
    · rw [read_eq_error_iff, given, readDepth_eq_error_iff]
      simp only [WritesLimit, not_and, depthError, depthName]
  · rw [traceFilter_of_read found]
    exact filterOf_eq_some_iff

example : read (fun name ↦ if name = depthName then some " +0128\t" else none) =
    .ok ⟨some 128, none⟩ := by
  decide +kernel

end Settings

end ConstraintEval
