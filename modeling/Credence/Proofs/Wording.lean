import Credence.Proofs.Reading
/-!
# What is printed is read

Literals and clauses print in a part of the language: arguments in parentheses, with a comma and a blank between them,
and no calls, comparisons or assignments.  Each reader of the grammar is given such a text with something behind it that
does not run on from it, and takes the whole of it and no more.  So a clause with a full stop behind it is read as one
statement that says what it says (`single?_clause`), and so is a query with its question mark (`single?_query`).
-/
namespace Credence

namespace Grammar

/-! ## Characters -/

theorem isLower_iff {c : Char} : c.isLower = true ↔ 97 ≤ c.toNat ∧ c.toNat ≤ 122 := by
  delta Char.isLower
  simp only [Bool.and_eq_true, decide_eq_true_eq, ge_iff_le, UInt32.le_iff_toNat_le]
  exact Iff.rfl

theorem isUpper_iff {c : Char} : c.isUpper = true ↔ 65 ≤ c.toNat ∧ c.toNat ≤ 90 := by
  delta Char.isUpper
  simp only [decide_eq_true_eq, ge_iff_le, UInt32.le_iff_toNat_le]
  exact Iff.rfl

theorem isDigit_iff {c : Char} : c.isDigit = true ↔ 48 ≤ c.toNat ∧ c.toNat ≤ 57 := by
  delta Char.isDigit
  simp only [Bool.and_eq_true, decide_eq_true_eq, ge_iff_le, UInt32.le_iff_toNat_le]
  exact Iff.rfl

theorem isNameChar_iff {c : Char} :
    isNameChar c = true ↔ c.isUpper = true ∨ c.isLower = true ∨ c.isDigit = true ∨ c = '_' := by
  show (((c.isUpper || c.isLower) || c.isDigit) || c == '_') = true ↔ _
  simp only [Bool.or_eq_true, beq_iff_eq, or_assoc]

theorem isWordChar_of_isNameChar {c : Char} (h : isNameChar c = true) : Constant.isWordChar c = true := by
  rw [Constant.isWordChar, show (c.isAlphanum || c == '_') = true from h, Bool.true_or]

/-! ## Where words end -/

/-- What follows does not go on with a character of a kind. -/
def Breaks (p : Char → Bool) (cs : List Char) : Prop := ∀ c, cs.head? = some c → p c = false

theorem takeWhile_run {p : Char → Bool} {xs rest : List Char} (hx : ∀ x ∈ xs, p x = true) (h : Breaks p rest) :
    (xs ++ rest).takeWhile p = xs ∧ (xs ++ rest).dropWhile p = rest := by
  rw [List.takeWhile_append_of_pos hx, List.dropWhile_append_of_pos hx]
  cases rest with
  | nil => simp
  | cons c cs => simp [h c rfl]

/-- Whether a character stands in a number or in a word. -/
def isTermChar (c : Char) : Bool := Constant.isWordChar c || c == '.'

theorem Breaks.mono {p q : Char → Bool} {cs : List Char} (h : Breaks q cs) (hpq : ∀ c, p c = true → q c = true) :
    Breaks p cs := by
  intro c hc
  by_contra hp
  exact absurd (h c hc) (by simp [hpq c (by simpa using hp)])

theorem Breaks.digits {cs : List Char} (h : Breaks isTermChar cs) : Breaks Char.isDigit cs :=
  h.mono (fun _ hc => by simp [isTermChar, isWordChar_of_isDigit hc])

theorem Breaks.word {cs : List Char} (h : Breaks isTermChar cs) : Breaks Constant.isWordChar cs :=
  h.mono (fun _ hc => by simp [isTermChar, hc])

theorem startsWord_of_breaks {cs : List Char} (h : Breaks isTermChar cs) : startsWord cs = false := by
  cases cs with
  | nil => rfl
  | cons c cs => exact h.word c rfl

/-! ## Numbers -/

/-- **A number reads as itself**, where neither a word nor a fraction goes on behind it. -/
theorem number_of_isNumber {s : String} {rest : List Char} (hs : Constant.isNumber s.toList = true)
    (h : Breaks isTermChar rest) : number (s.toList ++ rest) = some (s, rest) := by
  obtain ⟨sign, whole, tail, e, hsign, hwhole, htail⟩ := Constant.isNumber_iff.1 hs
  obtain ⟨hne, hdigit⟩ := Constant.digit_of_isDigitRun hwhole
  obtain ⟨sign', digits, hsplit, hsign', hnumber⟩ := number_eq (s.toList ++ rest)
  have hdigits : sign' = sign ∧ digits = whole ++ (tail ++ rest) := by
    rw [e, List.append_assoc, List.append_assoc] at hsplit
    obtain ⟨x, xs, rfl⟩ := List.exists_cons_of_ne_nil hne
    have hx : x ≠ '-' := by
      rintro rfl
      exact absurd (hdigit '-' List.mem_cons_self) (by decide)
    rcases hsign with rfl | rfl <;> rcases hsign' with ⟨rfl, hhead⟩ | rfl
    · exact ⟨rfl, hsplit.symm⟩
    · exact absurd (List.cons.inj hsplit).1 hx
    · exact absurd (congrArg List.head? hsplit.symm) hhead
    · exact ⟨rfl, (List.cons.inj hsplit).2.symm⟩
  obtain ⟨rfl, rfl⟩ := hdigits
  have htailBreaks : Breaks Char.isDigit (tail ++ rest) := by
    rcases htail with rfl | ⟨ds, rfl, -⟩
    · exact h.digits
    · intro c hc
      obtain rfl : '.' = c := Option.some.inj hc
      rfl
  obtain ⟨htake, hdrop⟩ := takeWhile_run hdigit htailBreaks
  have hfraction : fraction (tail ++ rest) = (tail, rest) := by
    rcases htail with rfl | ⟨ds, rfl, hds⟩
    · unfold fraction
      split
      · rename_i after _
        exact absurd (h '.' (by simp_all)) (by decide)
      · rfl
    · obtain ⟨hdne, hdd⟩ := Constant.digit_of_isDigitRun hds
      obtain ⟨h1, h2⟩ := takeWhile_run hdd h.digits
      simp only [fraction, List.cons_append, h1, h2]
      rw [if_neg (by simpa using hdne)]
  have hwhole' : whole.isEmpty = false := by simpa using hne
  rw [hnumber, htake, hdrop, hfraction, if_neg (by simp [hwhole', startsWord_of_breaks h])]
  rw [← List.append_assoc] at e
  rw [← e, String.ofList_toList]

/-- A word that is no number is not read as one. -/
theorem number_of_word {s : String} {rest : List Char} (hs : Constant.isNumber s.toList = false)
    (hword : ∀ x ∈ s.toList, Constant.isWordChar x = true) (h : Breaks isTermChar rest) :
    number (s.toList ++ rest) = none := by
  cases hn : number (s.toList ++ rest) with
  | none => rfl
  | some p =>
    obtain ⟨n, after⟩ := p
    obtain ⟨hsplit, hnumber, hstop⟩ := number_spec hn
    rcases List.append_eq_append_iff.1 hsplit with ⟨cs, hcs, hrest⟩ | ⟨cs, hcs, hafter⟩
    · cases cs with
      | nil =>
        rw [List.append_nil] at hcs
        rw [hcs, hs] at hnumber
        cases hnumber
      | cons x xs =>
        -- a number that goes on behind the word would do so with one of its characters
        have hx : isTermChar x = false := h x (by rw [hrest]; rfl)
        have hplain := Constant.isPlain_iff.1 (Constant.isPlain_of_isNumber hnumber)
        obtain ⟨y, ys, hys, -, hall⟩ := hplain
        have := hall x (by rw [← hys]; simp [hcs])
        simp [isTermChar] at hx
        simp [hx] at this
    · cases cs with
      | nil =>
        rw [List.append_nil] at hcs
        rw [← hcs, hs] at hnumber
        cases hnumber
      | cons x xs =>
        -- the number ends inside of the word
        rw [hafter] at hstop
        have := hword x (by rw [hcs]; simp)
        simp [startsWord, this] at hstop

/-- A number begins with a digit or with a minus. -/
theorem number_cons {x : Char} (hd : x.isDigit = false) (hm : x ≠ '-') (xs : List Char) : number (x :: xs) = none := by
  obtain ⟨sign, digits, hsplit, hsign, e⟩ := number_eq (x :: xs)
  rcases hsign with ⟨rfl, -⟩ | rfl
  · obtain rfl : x :: xs = digits := hsplit
    rw [e, if_pos (by simp [hd])]
  · exact absurd (List.cons.inj hsplit).1 hm

end Grammar

/-! ## Terms -/

/-- A term as it stands in a text. -/
def Term.lexeme : Term → Grammar.Lexeme
  | .const c => if Constant.isNumber c.printed.toList then .number c.printed else .word c.printed
  | .var v   => if v.wildcard then .wildcard else .named (Term.var v).text

theorem Term.toList_text {v : Var} (h : v.wildcard = false) : (Term.var v).text.toList = 'V' :: (toString v.id).toList := by
  rw [Term.text, if_neg (by simp [h]), String.toList_append]
  rfl

namespace Grammar

/-- Some characters of terms, and nothing else. -/
def IsTermText (s : String) : Prop := s.toList ≠ [] ∧ ∀ x ∈ s.toList, isTermChar x = true

theorem isTermText_of_isSpelled {t : Term} (h : t.isSpelled = true) : IsTermText t.text := by
  cases t with
  | const c =>
    obtain ⟨x, xs, hs, -, hall⟩ := Constant.isPlain_iff.1 (Constant.isPlain_of_isWord h)
    refine ⟨by rw [Term.text, hs]; simp, fun y hy => ?_⟩
    rw [Term.text, hs] at hy
    simpa [isTermChar] using hall y hy
  | var v =>
    cases hw : v.wildcard with
    | true =>
      rw [IsTermText, Term.text, if_pos hw]
      exact ⟨by decide, List.all_eq_true.1 (by decide)⟩
    | false =>
      rw [IsTermText, Term.toList_text hw]
      refine ⟨by simp, fun x hx => ?_⟩
      rcases List.mem_cons.1 hx with rfl | hx
      · decide
      · simp [isTermChar, isWordChar_of_isDigit (Text.isDigit_of_mem_toString hx)]

theorem quoted_cons {x : Char} (h : isTermChar x = true) (xs : List Char) : quoted (x :: xs) = none := by
  unfold quoted
  refine if_neg ?_
  rintro (rfl | rfl) <;> exact absurd h (by decide)

theorem word_run {s : String} {rest : List Char} (hne : s.toList ≠ []) (hs : ∀ x ∈ s.toList, Constant.isWordChar x = true)
    (hr : Breaks Constant.isWordChar rest) : word (s.toList ++ rest) = some (.word s, rest) := by
  obtain ⟨htake, hdrop⟩ := takeWhile_run hs hr
  simp only [word, htake, hdrop, String.ofList_toList]
  exact if_neg (by simpa using hne)

theorem variableName_run {s : String} {rest : List Char} {x : Char} {xs : List Char} (hs : s.toList = x :: xs)
    (hx : x.isUpper = true) (hxs : ∀ y ∈ xs, Constant.isWordChar y = true) (hr : Breaks Constant.isWordChar rest) :
    variableName (s.toList ++ rest) = some (s, rest) := by
  obtain ⟨htake, hdrop⟩ := takeWhile_run hxs hr
  rw [hs, List.cons_append, variableName, if_pos hx, htake, hdrop, ← hs, String.ofList_toList]

theorem name_run {s : String} {rest : List Char} (hs : Predicate.isName s = true) (hr : Breaks isNameChar rest) :
    name (s.toList ++ rest) = some (s, rest) := by
  unfold Predicate.isName at hs
  split at hs
  · cases hs
  · rename_i x xs hx
    rw [Bool.and_eq_true, List.all_eq_true] at hs
    obtain ⟨htake, hdrop⟩ := takeWhile_run hs.2 hr
    rw [hx, List.cons_append, name, if_pos hs.1, htake, hdrop, ← hx, String.ofList_toList]

/-- **A word is read as such** where nothing before it in the order of the terms fits. -/
theorem term_word {s : String} {rest : List Char} {x : Char} {xs : List Char} (hs : s.toList = x :: xs)
    (hupper : x.isUpper = false) (hblank : x ≠ '_') (hword : ∀ y ∈ s.toList, Constant.isWordChar y = true)
    (hnumber : number (s.toList ++ rest) = none) (hr : Breaks Constant.isWordChar rest) :
    term (s.toList ++ rest) = some (.word s, rest) := by
  have hread := word_run (by rw [hs]; exact List.cons_ne_nil x xs) hword hr
  have hx : isTermChar x = true := by rw [isTermChar, hword x (by rw [hs]; exact List.mem_cons_self), Bool.true_or]
  rw [hs, List.cons_append] at hread hnumber ⊢
  have hvariable : variableName (x :: (xs ++ rest)) = none := if_neg (by simp [hupper])
  have hwild : wildcard (x :: (xs ++ rest)) = none := by
    unfold wildcard
    split
    · rename_i e
      exact absurd (List.cons.inj e).1 hblank
    · rfl
  simp only [term, quoted_cons hx, hnumber, hvariable, hwild, hread]
  rfl

/-- **A term reads as itself.** -/
theorem term_text {t : Term} (h : t.isSpelled = true) {rest : List Char} (hr : Breaks isTermChar rest) :
    term (t.text.toList ++ rest) = some (t.lexeme, rest) := by
  obtain ⟨hne, hchar⟩ := isTermText_of_isSpelled h
  have hquoted : quoted (t.text.toList ++ rest) = none := by
    obtain ⟨x, xs, hx⟩ := List.exists_cons_of_ne_nil hne
    rw [hx]
    exact quoted_cons (hchar x (by simp [hx])) _
  cases t with
  | const c =>
    rw [Term.text] at hquoted hchar ⊢
    cases hn : Constant.isNumber c.printed.toList with
    | true => simp [term, hquoted, number_of_isNumber hn hr, Term.lexeme, hn]
    | false =>
      rw [Term.isSpelled, Constant.isWord, hn, Bool.false_or] at h
      cases hs : c.printed.toList with
      | nil =>
        rw [hs] at h
        cases h
      | cons x xs =>
        rw [hs] at h
        simp only [Bool.and_eq_true, Bool.not_eq_true', bne_iff_ne, ne_eq, List.all_eq_true] at h
        obtain ⟨⟨hupper, hblank⟩, hword⟩ := h
        rw [← hs] at hword ⊢
        rw [term_word hs hupper hblank hword (number_of_word hn hword hr) hr.word, Term.lexeme, hn]
        rfl
  | var v =>
    cases hw : v.wildcard with
    | true =>
      have hdrop : ([] ++ rest).dropWhile Constant.isWordChar = rest := (takeWhile_run (by simp) hr.word).2
      rw [Term.text, if_pos hw] at hquoted ⊢
      have hread : wildcard ('_' :: rest) = some (.wildcard, rest) := by
        rw [wildcard]
        exact congrArg some (congrArg _ hdrop)
      show term ('_' :: rest) = _
      simp only [term, show quoted ('_' :: rest) = none from hquoted, number_cons (x := '_') (by decide) (by decide),
        show variableName ('_' :: rest) = none from rfl, hread, Term.lexeme, hw]
      rfl
    | false =>
      have hread := variableName_run (Term.toList_text hw) (by decide)
        (fun x hx => isWordChar_of_isDigit (Text.isDigit_of_mem_toString hx)) hr.word
      have hnumber : number ((Term.var v).text.toList ++ rest) = none := by
        rw [Term.toList_text hw]
        exact number_cons (by decide) (by decide) _
      simp only [term, hquoted, hnumber, hread, Term.lexeme, hw]
      rfl

/-! ## Lists -/

theorem token_ne (mark : String) {c : Char} {ds : List Char} (hm : mark.toList = c :: ds) {x : Char} (h : x ≠ c)
    (cs : List Char) : token mark (x :: cs) = none := by
  simp [token, hm, List.isPrefixOf?, Ne.symm h]

/-- The text begins with neither a blank nor a comment. -/
def Inked (cs : List Char) : Prop := ∃ c rest, cs = c :: rest ∧ isSpace c = false ∧ c ≠ '%'

theorem Inked.append {cs : List Char} (h : Inked cs) (rest : List Char) : Inked (cs ++ rest) := by
  obtain ⟨c, cs, rfl, hc⟩ := h
  exact ⟨c, cs ++ rest, rfl, hc⟩

theorem Inked.skip {cs : List Char} (h : Inked cs) : skip cs = cs := by
  obtain ⟨c, cs, rfl, hs, hc⟩ := h
  simp [Grammar.skip, skipFrom, hs, hc]

theorem skip_blank (cs : List Char) : skip (' ' :: cs) = skip cs := rfl

theorem ink_of_isTermChar {c : Char} (h : isTermChar c = true) : isSpace c = false ∧ c ≠ '%' := by
  constructor
  · rw [Bool.eq_false_iff]
    intro hs
    simp only [isSpace, Bool.or_eq_true, beq_iff_eq] at hs
    rcases hs with ((rfl | rfl) | rfl) | rfl <;> exact absurd h (by decide)
  · rintro rfl
    exact absurd h (by decide)

theorem inked_of_isTermText {s : String} (h : IsTermText s) : Inked s.toList := by
  obtain ⟨x, xs, hx⟩ := List.exists_cons_of_ne_nil h.1
  exact ⟨x, xs, hx, ink_of_isTermChar (h.2 x (by simp [hx]))⟩

theorem inked_joined {α : Type} {write : α → String} : ∀ {as : List α}, as ≠ [] → (∀ a ∈ as, Inked (write a).toList) →
    Inked (String.intercalate ", " (as.map write)).toList
  | [],          hne, _    => absurd rfl hne
  | [a],         _,   hink => by
    rw [List.map_singleton, String.intercalate_singleton]
    exact hink a List.mem_cons_self
  | a :: b :: _, _,   hink => by
    rw [List.map_cons, List.map_cons, String.intercalate_cons_cons, String.toList_append, String.toList_append,
      List.append_assoc]
    exact (hink a List.mem_cons_self).append _

/-- Every entry takes up some room. -/
theorem length_le_intercalate {α : Type} {write : α → String} : ∀ {as : List α}, (∀ a ∈ as, Inked (write a).toList) →
    as.length ≤ (String.intercalate ", " (as.map write)).toList.length
  | [],           _    => Nat.zero_le _
  | [a],          hink => by
    obtain ⟨c, cs, h, -⟩ := hink a List.mem_cons_self
    simp [h]
  | a :: b :: as, hink => by
    have ih : (b :: as).length ≤ _ := length_le_intercalate (fun x hx => hink x (List.mem_cons_of_mem _ hx))
    have hsep : ", ".toList.length = 2 := rfl
    rw [List.map_cons, List.map_cons, String.intercalate_cons_cons, String.toList_append, String.toList_append,
      List.length_append, List.length_append, ← List.map_cons]
    simp only [List.length_cons] at ih ⊢
    omega

/-- A list with a comma and a blank between its entries is read to its end, where each entry is. -/
theorem Lists.joined_of_lt {α β : Type} {list : Nat → List Char → List β × List Char} {entry : Nat → Reader β}
    (h : Lists list entry) (write : α → String) (read : α → β) {close : Char} (hmark : close ≠ ',')
    (hclose : isSpace close = false ∧ close ≠ '%') (rest : List Char) : ∀ {as : List α}, as ≠ [] →
    (∀ a ∈ as, Inked (write a).toList) →
    (∀ a ∈ as, ∀ fuel, 0 < fuel → ∀ c rest, c = ',' ∨ c = close →
      entry fuel ((write a).toList ++ c :: rest) = some (read a, c :: rest)) → ∀ {fuel : Nat}, as.length < fuel →
    list fuel ((String.intercalate ", " (as.map write)).toList ++ close :: rest) = (as.map read, close :: rest)
  | [],           hne, _,    _,      _,        _     => absurd rfl hne
  | [a],          _,   _,    _,      0,        hfuel => absurd hfuel (by simp)
  | [a],          _,   _,    hentry, fuel + 1, hfuel => by
    have ha := hentry a List.mem_cons_self fuel (by simpa using hfuel) close rest (.inr rfl)
    rw [List.map_singleton, String.intercalate_singleton]
    refine h.last ha ?_
    rw [Inked.skip ⟨close, rest, rfl, hclose⟩]
    exact token_ne _ rfl hmark rest
  | a :: b :: as, _,   _,    _,      0,        hfuel => absurd hfuel (by simp)
  | a :: b :: as, _,   hink, hentry, fuel + 1, hfuel => by
    have hfuel' : (b :: as).length < fuel := Nat.lt_of_succ_lt_succ hfuel
    have hink' : ∀ x ∈ b :: as, Inked (write x).toList := fun x hx => hink x (List.mem_cons_of_mem _ hx)
    have ih := joined_of_lt h write read hmark hclose rest (List.cons_ne_nil b as) hink'
      (fun x hx => hentry x (List.mem_cons_of_mem _ hx)) hfuel'
    have hnext := (inked_joined (List.cons_ne_nil b as) hink').append (close :: rest)
    rw [List.map_cons, List.map_cons, String.intercalate_cons_cons, ← List.map_cons]
    simp only [String.toList_append, List.append_assoc, show ", ".toList = [',', ' '] from rfl, List.cons_append,
      List.nil_append]
    generalize (String.intercalate ", " ((b :: as).map write)).toList ++ close :: rest = next at ih hnext ⊢
    have htoken : token "," (skip (',' :: ' ' :: next)) = some (' ' :: next) := by
      rw [Inked.skip ⟨',', ' ' :: next, rfl, by decide, by decide⟩]
      rfl
    refine h.more (hentry a List.mem_cons_self fuel (Nat.zero_lt_of_lt hfuel') ',' _ (.inl rfl)) htoken ?_
    rw [skip_blank, hnext.skip]
    exact ih

/-- **The length of the text is bound enough to read a list**, where each entry is read. -/
theorem Lists.joined {α β : Type} {list : Nat → List Char → List β × List Char} {entry : Nat → Reader β}
    (h : Lists list entry) (write : α → String) (read : α → β) {close : Char} (hmark : close ≠ ',')
    (hclose : isSpace close = false ∧ close ≠ '%') (rest : List Char) {as : List α} (hne : as ≠ [])
    (hink : ∀ a ∈ as, Inked (write a).toList)
    (hentry : ∀ a ∈ as, ∀ fuel, 0 < fuel → ∀ c rest, c = ',' ∨ c = close →
      entry fuel ((write a).toList ++ c :: rest) = some (read a, c :: rest))
    {fuel : Nat} (hfuel : (String.intercalate ", " (as.map write)).toList.length < fuel) :
    list fuel ((String.intercalate ", " (as.map write)).toList ++ close :: rest) = (as.map read, close :: rest) :=
  h.joined_of_lt write read hmark hclose rest hne hink hentry (Nat.lt_of_le_of_lt (length_le_intercalate hink) hfuel)

/-! ## Arguments -/

theorem token_eq_some {mark : String} {cs rest : List Char} : token mark cs = some rest ↔ cs = mark.toList ++ rest := by
  rw [token, List.isPrefixOf?_eq_some_iff_append_eq, eq_comm]

theorem isNameChar_of_isName {s : String} (h : Predicate.isName s = true) : ∀ x ∈ s.toList, isNameChar x = true := by
  intro x hx
  unfold Predicate.isName at h
  split at h
  · cases h
  · rename_i c cs hs
    rw [Bool.and_eq_true] at h
    rw [hs] at hx
    rcases List.mem_cons.1 hx with rfl | hx
    · exact isNameChar_iff.2 (.inr (.inl h.1))
    · exact List.all_eq_true.1 h.2 x hx

/-- The name of a call is the longest run of its characters. -/
theorem callName_spec {cs rest : List Char} {s : String} (h : callName cs = some (s, rest)) :
    cs.takeWhile isNameChar = s.toList ∧ cs.dropWhile isNameChar = rest := by
  obtain ⟨after, hafter, h⟩ := Option.bind_eq_some_iff.1 h
  have hmark : ∀ x ∈ "fn_".toList, isNameChar x = true := List.all_eq_true.1 (by decide)
  dsimp only at h
  split at h
  · cases h
  · injection h with h
    injection h with hs hrest
    subst hs hrest
    rw [token_eq_some.1 hafter, List.takeWhile_append_of_pos hmark, List.dropWhile_append_of_pos hmark]
    exact ⟨by simp only [String.toList_append, String.toList_ofList], rfl⟩

/-- Whether a character can stand behind an argument. -/
def isSeparator (c : Char) : Bool := c == ',' || c == ')'

theorem breaks_of_isSeparator {c : Char} (h : isSeparator c = true) (rest : List Char) : Breaks isTermChar (c :: rest) := by
  intro x hx
  obtain rfl : c = x := Option.some.inj hx
  simp only [isSeparator, Bool.or_eq_true, beq_iff_eq] at h
  rcases h with rfl | rfl <;> rfl

/-- No parenthesis follows a name that a term begins with, unless one follows the term. -/
theorem token_of_callName {s n : String} (hs : ∀ x ∈ s.toList, isTermChar x = true) {rest after : List Char}
    (hr : Breaks isTermChar rest) (hopen : token "(" (skip rest) = none) (h : callName (s.toList ++ rest) = some (n, after)) :
    token "(" (skip after) = none := by
  obtain ⟨hrun, hafter⟩ := callName_spec h
  have hsplit : s.toList ++ rest = n.toList ++ after := by rw [← hrun, ← hafter, List.takeWhile_append_dropWhile]
  have hname : ∀ x ∈ n.toList, isNameChar x = true := by
    rw [← hrun]
    exact List.all_eq_true.1 List.all_takeWhile
  rcases List.append_eq_append_iff.1 hsplit with ⟨cs, hn, hrest⟩ | ⟨cs, hcs, hafter⟩
  · cases cs with
    | nil => rwa [← show rest = after from hrest]
    | cons x xs =>
      -- a name that goes on behind the term would do so with one of its characters
      have hx : isTermChar x = false := hr x (by rw [hrest]; rfl)
      rw [isTermChar, isWordChar_of_isNameChar (hname x (by rw [hn]; simp))] at hx
      cases hx
  · cases cs with
    | nil => rwa [show after = rest from hafter]
    | cons x xs =>
      have hx : isTermChar x = true := hs x (by rw [hcs]; simp)
      rw [hafter, List.cons_append, Inked.skip ⟨x, _, rfl, ink_of_isTermChar hx⟩]
      refine token_ne _ rfl ?_ _
      rintro rfl
      exact absurd hx (by decide)

/-- **A term is read as such**, also where calls can stand, unless a parenthesis follows it. -/
theorem operand_text {t : Term} (h : t.isSpelled = true) {rest : List Char} (hr : Breaks isTermChar rest)
    (hopen : token "(" (skip rest) = none) {fuel : Nat} (hfuel : 0 < fuel) :
    operand fuel (t.text.toList ++ rest) = some (.term t.lexeme, rest) := by
  obtain ⟨n, rfl⟩ := Nat.exists_eq_add_of_lt hfuel
  rw [Nat.zero_add, operand, term_text h hr]
  cases hcall : callName (t.text.toList ++ rest) with
  | none => rfl
  | some p =>
    obtain ⟨s, after⟩ := p
    simp only [token_of_callName (isTermText_of_isSpelled h).2 hr hopen hcall]
    rfl

theorem token_of_isSeparator {c : Char} (h : isSeparator c = true) (rest : List Char) :
    token "(" (skip (c :: rest)) = none := by
  simp only [isSeparator, Bool.or_eq_true, beq_iff_eq] at h
  rcases h with rfl | rfl
  · rw [Inked.skip ⟨_, rest, rfl, by decide, by decide⟩]
    exact token_ne _ rfl (by decide) rest
  · rw [Inked.skip ⟨_, rest, rfl, by decide, by decide⟩]
    exact token_ne _ rfl (by decide) rest

/-- The arguments of a literal, as they stand behind its name. -/
def argumentText (ts : List Term) : List Char :=
  if ts.isEmpty then [] else '(' :: ((String.intercalate ", " (ts.map Term.text)).toList ++ [')'])

theorem argumentText_nil : argumentText [] = [] := rfl

theorem toList_applied (name : String) (ts : List Term) :
    (Literal.applied ", " name (ts.map Term.text)).toList = name.toList ++ argumentText ts := by
  unfold Literal.applied argumentText
  cases ts with
  | nil => simp
  | cons t ts => simp [String.toList_append]

/-- What a reader of arguments does with an argument that a comma or a parenthesis follows. -/
def ReadsArguments {α : Type} (entry : Nat → Reader α) (read : Term → α) : Prop :=
  ∀ t : Term, t.isSpelled = true → ∀ fuel, 0 < fuel → ∀ c rest, isSeparator c = true →
    entry fuel (t.text.toList ++ c :: rest) = some (read t, c :: rest)

theorem readsArguments_term : ReadsArguments (fun _ => term) Term.lexeme :=
  fun _ ht _ _ _ rest hc => term_text ht (breaks_of_isSeparator hc rest)

theorem readsArguments_operand : ReadsArguments operand (fun t => .term t.lexeme) :=
  fun _ ht _ hfuel _ rest hc => operand_text ht (breaks_of_isSeparator hc rest) (token_of_isSeparator hc rest) hfuel

section Arguments

variable {α : Type} {list : Nat → List Char → List α × List Char} {entry : Nat → Reader α} {read : Term → α}
  {ts : List Term} {fuel : Nat}

/-- **Arguments are read from the opening parenthesis to the closing one.** -/
theorem enclosed_run (h : Lists list entry) (hread : ReadsArguments entry read) (hts : ∀ t ∈ ts, t.isSpelled = true)
    (hne : ts ≠ []) (rest : List Char) (hfuel : (argumentText ts).length < fuel) :
    ∃ inner, token "(" (skip (argumentText ts ++ rest)) = some inner ∧
      list fuel (skip inner) = (ts.map read, ')' :: rest) := by
  have hink : ∀ t ∈ ts, Inked t.text.toList := fun t ht => inked_of_isTermText (isTermText_of_isSpelled (hts t ht))
  have hinner := (inked_joined hne hink).append (')' :: rest)
  rw [argumentText, if_neg (by simpa using hne)] at hfuel ⊢
  have hroom : (String.intercalate ", " (ts.map Term.text)).toList.length < fuel := by
    simp only [List.length_cons, List.length_append] at hfuel
    omega
  refine ⟨(String.intercalate ", " (ts.map Term.text)).toList ++ ')' :: rest, ?_, ?_⟩
  · rw [List.cons_append, List.append_assoc, Inked.skip ⟨'(', _, rfl, by decide, by decide⟩]
    rfl
  · rw [hinner.skip]
    exact h.joined Term.text read (by decide) (by decide) rest hne hink
      (fun t ht fuel hfuel c rest hc => hread t (hts t ht) fuel hfuel c rest (by simpa [isSeparator] using hc)) hroom

/-- Without arguments, what follows is left as it is. -/
theorem parenthesized_run (h : Lists list entry) (hread : ReadsArguments entry read) (hts : ∀ t ∈ ts, t.isSpelled = true)
    {rest : List Char} (hrest : token "(" (skip rest) = none) :
    parenthesized (list ((argumentText ts ++ rest).length + 1)) (argumentText ts ++ rest) = (ts.map read, rest) := by
  cases ts with
  | nil => simp [parenthesized, argumentText, hrest]
  | cons t ts =>
    have hroom : (argumentText (t :: ts)).length < (argumentText (t :: ts) ++ rest).length + 1 := by
      simp only [List.length_append]
      omega
    obtain ⟨inner, hopen, hinner⟩ := enclosed_run h hread hts (List.cons_ne_nil t ts) rest hroom
    have hclose : token ")" (skip (')' :: rest)) = some rest := by
      rw [Inked.skip ⟨')', rest, rfl, by decide, by decide⟩]
      rfl
    simp only [parenthesized, hopen, Option.bind_some, hinner, hclose, Option.map_some, Option.getD_some]

end Arguments

/-! ## Literals -/

/-- What follows a literal goes on neither with its name nor with arguments. -/
structure Ends (rest : List Char) : Prop where
  word : Breaks Constant.isWordChar rest
  args : token "(" (skip rest) = none

theorem ends_of_mark {c : Char} (h : c = ',' ∨ c = '.' ∨ c = '?') (rest : List Char) : Ends (c :: rest) := by
  have hc : Constant.isWordChar c = false ∧ (isSpace c = false ∧ c ≠ '%') ∧ c ≠ '(' := by
    rcases h with rfl | rfl | rfl <;> decide
  refine ⟨fun x hx => Option.some.inj hx ▸ hc.1, ?_⟩
  rw [Inked.skip ⟨c, rest, rfl, hc.2.1⟩]
  exact token_ne _ rfl hc.2.2 rest

theorem Ends.breaks {rest : List Char} (h : Ends rest) (ts : List Term) :
    Breaks Constant.isWordChar (argumentText ts ++ rest) := by
  unfold argumentText
  split
  · exact h.word
  · intro x hx
    obtain rfl : '(' = x := Option.some.inj hx
    rfl

/-- What a small letter is not. -/
theorem small_of_isLower {x : Char} (h : x.isLower = true) :
    x.isDigit = false ∧ x.isUpper = false ∧ x ≠ '-' ∧ x ≠ '_' ∧ x ≠ '~' ∧ x ≠ '\\' ∧ isTermChar x = true := by
  have hcode := isLower_iff.1 h
  have hletter : isTermChar x = true := by
    rw [isTermChar, isWordChar_of_isNameChar (isNameChar_iff.2 (.inr (.inl h))), Bool.true_or]
  refine ⟨?_, ?_, ?_, ?_, ?_, ?_, hletter⟩
  · refine Bool.eq_false_iff.2 (fun hdigit => ?_)
    have := isDigit_iff.1 hdigit
    omega
  · refine Bool.eq_false_iff.2 (fun hupper => ?_)
    have := isUpper_iff.1 hupper
    omega
  all_goals
    rintro rfl
    exact absurd h (by decide)

theorem isName_cons {s : String} (h : Predicate.isName s = true) : ∃ x xs, s.toList = x :: xs ∧ x.isLower = true := by
  unfold Predicate.isName at h
  split at h
  · cases h
  · rename_i x xs hs
    exact ⟨x, xs, hs, (Bool.and_eq_true_iff.1 h).1⟩

theorem inked_of_isName {s : String} (h : Predicate.isName s = true) : Inked s.toList := by
  obtain ⟨x, xs, hs, hx⟩ := isName_cons h
  obtain ⟨-, -, -, -, -, -, hx⟩ := small_of_isLower hx
  exact ⟨x, xs, hs, ink_of_isTermChar hx⟩

section Names

variable {p : Predicate}

theorem toList_name_of_isNegated (h : p.isNegated = true) : p.name.toList = '~' :: p.base.toList := by
  rw [Predicate.name_of_isNegated h, String.toList_append]
  rfl

/-- The name of a predicate begins with a small letter, or with the mark of negation. -/
theorem name_cons (h : p.isPlain = true) : ∃ x xs, p.name.toList = x :: xs ∧ (x.isLower = true ∨ x = '~') := by
  cases hneg : p.isNegated with
  | true => exact ⟨'~', p.base.toList, toList_name_of_isNegated hneg, .inr rfl⟩
  | false =>
    rw [← Predicate.base_of_not_isNegated hneg]
    obtain ⟨x, xs, hs, hx⟩ := isName_cons h
    exact ⟨x, xs, hs, .inl hx⟩

theorem inked_name (h : p.isPlain = true) : Inked p.name.toList := by
  obtain ⟨x, xs, hs, hx | rfl⟩ := name_cons h
  · obtain ⟨-, -, -, -, -, -, hx⟩ := small_of_isLower hx
    exact ⟨x, xs, hs, ink_of_isTermChar hx⟩
  · exact ⟨'~', xs, hs, by decide⟩

/-- The mark of negation is read apart from the name. -/
theorem negation_name (h : p.isPlain = true) (rest : List Char) :
    negation (p.name.toList ++ rest) = (p.isNegated, p.base.toList ++ rest) := by
  cases hneg : p.isNegated with
  | true =>
    rw [toList_name_of_isNegated hneg]
    rfl
  | false =>
    rw [← Predicate.base_of_not_isNegated hneg]
    obtain ⟨x, xs, hs, hx⟩ := isName_cons h
    obtain ⟨-, -, -, -, htilde, hslash, -⟩ := small_of_isLower hx
    rw [hs, List.cons_append, negation, token_ne "~" rfl htilde, token_ne "\\+" rfl hslash]
    rfl

theorem number_name (h : p.isPlain = true) (rest : List Char) : number (p.name.toList ++ rest) = none := by
  obtain ⟨x, xs, hs, hx | rfl⟩ := name_cons h
  · obtain ⟨hdigit, -, hminus, -⟩ := small_of_isLower hx
    rw [hs, List.cons_append, number_cons hdigit hminus]
  · rw [hs, List.cons_append, number_cons (by decide) (by decide)]

end Names

theorem comparisonSign_cons {x : Char} (h : x ∉ ['<', '>', '!', '=']) (xs : List Char) :
    comparisonSign (x :: xs) = none := by
  simp only [List.mem_cons, List.not_mem_nil, or_false, not_or] at h
  obtain ⟨h1, h2, h3, h4⟩ := h
  simp only [comparisonSign, comparisonSigns, List.findSome?_cons, List.findSome?_nil, token_ne "<=" rfl h1,
    token_ne "<>" rfl h1, token_ne "<" rfl h1, token_ne ">=" rfl h2,
    token_ne ">" rfl h2, token_ne "!=" rfl h3, token_ne "=" rfl h4, Option.map_none]

section Literals

variable {W : Type} {l : Literal W} {rest : List Char}

/-- **The atom of a body is read with its sign, its name and its arguments.** -/
theorem bodyAtom_text (hl : l.IsSpelled) (hrest : Ends rest) :
    bodyAtom (l.name.toList ++ (argumentText l.terms ++ rest)) =
      some (.atom l.isNegated l.predicate.base (l.terms.map (fun t => .term t.lexeme)), rest) := by
  have hplain := Literal.isPlain.predicate hl.plain
  have hname := name_run hplain ((hrest.breaks l.terms).mono (fun _ => isWordChar_of_isNameChar))
  have hargs := parenthesized_run lists_operands readsArguments_operand hl.words hrest.args
  have hskip := ((inked_of_isName hplain).append (argumentText l.terms ++ rest)).skip
  have hnegation : negation (l.name.toList ++ (argumentText l.terms ++ rest)) = _ := negation_name hplain _
  simp only [bodyAtom, hnegation, hskip, hname, bind, Option.bind_some, hargs]
  rfl

omit W l in
/-- A name is read as a bare word. -/
theorem rest_of_term {s : String} (hs : Predicate.isName s = true) (hrest : Breaks Constant.isWordChar rest) {t : Lexeme}
    {after : List Char} (h : term (s.toList ++ rest) = some (t, after)) : after = rest := by
  have hword : ∀ y ∈ s.toList, Constant.isWordChar y = true :=
    fun y hy => isWordChar_of_isNameChar (isNameChar_of_isName hs y hy)
  obtain ⟨x, xs, hx, hlower⟩ := isName_cons hs
  obtain ⟨hdigit, hupper, hminus, hblank, -⟩ := small_of_isLower hlower
  have hnumber : number (s.toList ++ rest) = none := by
    rw [hx, List.cons_append]
    exact number_cons hdigit hminus _
  rw [term_word hx hupper hblank hword hnumber hrest] at h
  exact (congrArg Prod.snd (Option.some.inj h)).symm

/-- An operand that is read where a literal stands ends behind its name or behind its arguments. -/
theorem rest_of_operand (hl : l.IsSpelled) (hrest : Ends rest) {fuel : Nat} (hfuel : (argumentText l.terms).length < fuel)
    {after : List Char} {a : Operand}
    (h : operand (fuel + 1) (l.name.toList ++ (argumentText l.terms ++ rest)) = some (a, after)) :
    after = rest ∨ after = argumentText l.terms ++ rest := by
  have hplain := Literal.isPlain.predicate hl.plain
  cases hneg : l.predicate.isNegated with
  | true =>
    -- the mark of negation begins neither a call nor a term
    rw [Literal.name, toList_name_of_isNegated hneg] at h
    cases h
  | false =>
    have hbase : l.predicate.base = l.name := Predicate.base_of_not_isNegated hneg
    have hname : Predicate.isName l.name = true := hbase ▸ hplain
    have hbreaks := hrest.breaks l.terms
    have hrun := takeWhile_run (isNameChar_of_isName hname) (hbreaks.mono (fun _ => isWordChar_of_isNameChar))
    rw [operand, Option.orElse_eq_some] at h
    rcases h with h | ⟨-, h⟩
    · -- a call
      split at h
      · cases h
      · rename_i s r hcall
        obtain ⟨-, rfl⟩ := callName_spec hcall
        rw [hrun.2] at h
        obtain ⟨inner, hopen, h⟩ := Option.bind_eq_some_iff.1 h
        obtain ⟨r', hclose, e⟩ := Option.map_eq_some_iff.1 h
        by_cases hne : l.terms = []
        · rw [hne, argumentText_nil, List.nil_append, hrest.args] at hopen
          cases hopen
        · obtain ⟨inner', hopen', hinner⟩ := enclosed_run lists_operands readsArguments_operand hl.words hne rest hfuel
          obtain rfl : inner = inner' := Option.some.inj (hopen.symm.trans hopen')
          rw [hinner, Inked.skip ⟨')', rest, rfl, by decide, by decide⟩] at hclose
          injection e with _ e
          exact .inl (e.symm.trans (Option.some.inj hclose).symm)
    · -- the name alone, which is a word
      obtain ⟨⟨t, r⟩, hterm, e⟩ := Option.map_eq_some_iff.1 h
      injection e with _ e
      subst e
      exact .inr (rest_of_term hname hbreaks hterm)

end Literals

end Grammar

/-! ## Bodies -/

/-- A literal as it stands in a body. -/
def Literal.item {W : Type} (l : Literal W) : Grammar.Item :=
  .atom l.isNegated l.predicate.base (l.terms.map (fun t => .term t.lexeme))

namespace Grammar

section Bodies

variable {W : Type} {l : Literal W}

/-- **A literal in a body is read as an atom**: no variable is assigned, and no sign follows to compare with. -/
theorem item_text (hl : l.IsSpelled) {c : Char} (hc : c = ',' ∨ c = '.') (rest : List Char) :
    item (l.name.toList ++ (argumentText l.terms ++ c :: rest)) = some (l.item, c :: rest) := by
  have hends : Ends (c :: rest) := ends_of_mark (hc.imp_right .inl) rest
  obtain ⟨x, xs, hname, hx⟩ := name_cons (Literal.isPlain.predicate hl.plain)
  have hassign : assignment (l.name.toList ++ (argumentText l.terms ++ c :: rest)) = none := by
    have hupper : x.isUpper = false := by
      rcases hx with hx | rfl
      · exact (small_of_isLower hx).2.1
      · rfl
    rw [assignment, Literal.name, hname, List.cons_append, variableName, if_neg (by simp [hupper])]
    rfl
  have hcompare : comparison (l.name.toList ++ (argumentText l.terms ++ c :: rest)) = none := by
    have hroom : (argumentText l.terms).length < (l.name.toList ++ (argumentText l.terms ++ c :: rest)).length := by
      simp only [List.length_append, List.length_cons]
      omega
    have hmark : comparisonSign (skip (c :: rest)) = none := by
      rw [Inked.skip ⟨c, rest, rfl, by rcases hc with rfl | rfl <;> decide⟩]
      exact comparisonSign_cons (by rcases hc with rfl | rfl <;> decide) rest
    have hargs : comparisonSign (skip (argumentText l.terms ++ c :: rest)) = none := by
      unfold argumentText
      split
      · exact hmark
      · rw [List.cons_append, Inked.skip ⟨'(', _, rfl, by decide, by decide⟩]
        exact comparisonSign_cons (by decide) _
    unfold comparison
    cases hop : operand ((l.name.toList ++ (argumentText l.terms ++ c :: rest)).length + 1)
        (l.name.toList ++ (argumentText l.terms ++ c :: rest)) with
    | none => rfl
    | some p =>
      obtain ⟨a, after⟩ := p
      have hsign : comparisonSign (skip after) = none := by
        rcases rest_of_operand hl hends hroom hop with rfl | rfl
        · exact hmark
        · exact hargs
      simp only [bind, Option.bind_some, hsign, Option.bind_none]
  rw [item, hassign, hcompare, bodyAtom_text hl hends]
  rfl

variable [Weight W] [LawfulWeight W]

theorem toList_text_of_isSaid (hl : l.IsSaid) : l.text.toList = l.name.toList ++ argumentText l.terms := by
  have hcertain : l.isCertain = true := (LawfulWeight.isCertain_iff l.weight).2 hl.weight
  rw [Literal.text, if_pos hcertain, String.empty_append, toList_applied]

/-- **A body is read literal by literal.** -/
theorem ending_rule {ls : List (Literal W)} (hls : ∀ l ∈ ls, l.IsSaid) (hne : ls ≠ []) :
    ending (':' :: '-' :: ' ' :: ((String.intercalate ", " (ls.map Literal.text)).toList ++ ['.'])) =
      some (.rule (ls.map Literal.item), []) := by
  have hink : ∀ l ∈ ls, Inked l.text.toList := by
    intro l hl
    rw [toList_text_of_isSaid (hls l hl)]
    exact (inked_name (Literal.isPlain.predicate (hls l hl).spelled.plain)).append _
  have hentry : ∀ l ∈ ls, ∀ fuel, 0 < fuel → ∀ c rest, c = ',' ∨ c = '.' →
      item (l.text.toList ++ c :: rest) = some (l.item, c :: rest) := by
    intro l hl _ _ c rest hc
    rw [toList_text_of_isSaid (hls l hl), List.append_assoc]
    exact item_text (hls l hl).spelled hc rest
  have hitems : ∀ fuel, _ < fuel → items fuel _ = _ := fun fuel hfuel =>
    lists_items.joined Literal.text Literal.item (by decide) (by decide) [] hne hink hentry hfuel
  have hskip := ((inked_joined hne hink).append ['.']).skip
  generalize (String.intercalate ", " (ls.map Literal.text)).toList = cs at hitems hskip ⊢
  have hbody : body (cs ++ ['.']) = some (ls.map Literal.item, ['.']) := by
    have hread := hitems ((cs ++ ['.']).length + 1) (by simp only [List.length_append]; omega)
    unfold body
    rw [hread]
    cases ls with
    | nil => exact absurd rfl hne
    | cons l ls => rfl
  have hneck : token ":-" (':' :: '-' :: ' ' :: (cs ++ ['.'])) = some (' ' :: (cs ++ ['.'])) := rfl
  have hrule : rule (':' :: '-' :: ' ' :: (cs ++ ['.'])) = some (.rule (ls.map Literal.item), []) := by
    simp only [rule, hneck, bind, Option.bind_some, skip_blank, hskip, hbody]
    rfl
  rw [ending, token_ne "?" rfl (by decide), hrule]
  rfl

end Bodies

end Grammar

/-! ## Statements -/

/-- Weights that are written in decimals and read as they were written. -/
class DecimalWeight (W : Type) [Weight W] : Prop extends LawfulWeight W where
  isNumber_text : ∀ w : W, Weight.isProper w = true → Constant.isNumber (Weight.text w).toList = true
  read_text     : ∀ w : W, Weight.isProper w = true → Weight.read? (Weight.text w) = some w

theorem Literal.IsSaid.isProper {W : Type} [Weight W] [LawfulWeight W] {l : Literal W} (h : l.IsSaid) :
    Weight.isProper l.weight = true := by
  rw [h.weight]
  exact LawfulWeight.isProper_one

theorem Clause.IsSaid.isProper {W : Type} [Weight W] [LawfulWeight W] {r : Registry} {c : Clause W} (h : c.IsSaid r) :
    Weight.isProper c.head.weight = true := by
  rcases h.weight with h | h
  · rw [h]
    exact LawfulWeight.isProper_one
  · exact h

/-- The weight as it stands in front of a literal. -/
def Literal.weightText? {W : Type} [Weight W] (l : Literal W) : Option String :=
  if l.isCertain then none else some (Weight.text l.weight)

/-- A literal as a statement. -/
def Literal.statement {W : Type} [Weight W] (l : Literal W) (text : String) (ending : Grammar.Ending) : Grammar.Statement :=
  ⟨text, l.weightText?, l.isNegated, l.predicate.base, l.terms.map Term.lexeme, ending⟩

/-- How the statement of a clause ends. -/
def Clause.ending {W : Type} (c : Clause W) : Grammar.Ending :=
  if c.body.isEmpty then .fact else .rule (c.body.map Literal.item)

namespace Grammar

section Statements

variable {W : Type} [Weight W] [DecimalWeight W] {l : Literal W} {rest : List Char}

omit [DecimalWeight W] in
theorem toList_text (l : Literal W) : l.text.toList =
    (if l.isCertain then [] else (Weight.text l.weight).toList ++ [':', ':']) ++ (l.name.toList ++ argumentText l.terms) := by
  rw [Literal.text, String.toList_append, toList_applied]
  split
  · rfl
  · rw [String.toList_append]
    rfl

/-- **The weight in front of a literal is read apart from it.** -/
theorem weight_text (hl : l.IsSpelled) (hw : Weight.isProper l.weight = true) (rest : List Char) :
    weight (l.text.toList ++ rest) = (l.weightText?, l.name.toList ++ (argumentText l.terms ++ rest)) := by
  have hplain := Literal.isPlain.predicate hl.plain
  rw [toList_text, Literal.weightText?]
  cases hc : l.isCertain with
  | true =>
    have hnumber : number (l.name.toList ++ (argumentText l.terms ++ rest)) = none := number_name hplain _
    simp only [weight, if_true, List.nil_append, List.append_assoc, hnumber]
  | false =>
    have hcolon : Breaks isTermChar (':' :: ':' :: (l.name.toList ++ (argumentText l.terms ++ rest))) := by
      intro x hx
      obtain rfl : ':' = x := Option.some.inj hx
      rfl
    have hnumber := number_of_isNumber (DecimalWeight.isNumber_text l.weight hw) hcolon
    have hcolons : token "::" (skip (':' :: ':' :: (l.name.toList ++ (argumentText l.terms ++ rest)))) =
        some (l.name.toList ++ (argumentText l.terms ++ rest)) := by
      rw [Inked.skip ⟨':', _, rfl, by decide, by decide⟩]
      rfl
    simp only [weight, Bool.false_eq_true, if_false, List.append_assoc, List.cons_append, List.nil_append, hnumber, hcolons]

theorem inked_text (hl : l.IsSpelled) (hw : Weight.isProper l.weight = true) : Inked l.text.toList := by
  have hname := inked_name (Literal.isPlain.predicate hl.plain)
  rw [toList_text]
  split
  · exact hname.append _
  · have hword : (Term.const ⟨Weight.text l.weight⟩).isSpelled = true := by
      rw [Term.isSpelled, Constant.isWord, DecimalWeight.isNumber_text l.weight hw, Bool.true_or]
    exact ((inked_of_isTermText (isTermText_of_isSpelled hword)).append _).append _

/-- **A literal with an ending behind it is one statement**, and says what the literal says. -/
theorem single?_text (hl : l.IsSpelled) (hw : Weight.isProper l.weight = true) (hrest : Ends rest) {e : Ending}
    (he : ending (skip rest) = some (e, [])) {s : String} (hs : s.toList = l.text.toList ++ rest) :
    ∃ text, single? s = some (l.statement text e) := by
  have hplain := Literal.isPlain.predicate hl.plain
  have hname := name_run hplain ((hrest.breaks l.terms).mono (fun _ => isWordChar_of_isNameChar))
  have hargs := parenthesized_run lists_terms readsArguments_term hl.words hrest.args
  have hskip := ((inked_of_isName hplain).append (argumentText l.terms ++ rest)).skip
  have hskip' : skip (l.name.toList ++ (argumentText l.terms ++ rest)) = l.name.toList ++ (argumentText l.terms ++ rest) :=
    ((inked_name hplain).append _).skip
  have hnegation : negation (l.name.toList ++ (argumentText l.terms ++ rest)) = _ := negation_name hplain _
  have hstatement : ∃ text, statement (l.text.toList ++ rest) =
      some (l.statement text e, []) := by
    refine ⟨String.ofList ((l.text.toList ++ rest).take ((l.text.toList ++ rest).length - 0)), ?_⟩
    simp only [statement, weight_text hl hw rest, hskip', hnegation, hskip, hname, bind, Option.bind_some, hargs, he]
    rfl
  obtain ⟨text, hstatement⟩ := hstatement
  refine ⟨text, ?_⟩
  unfold single?
  rw [hs, ((inked_text hl hw).append rest).skip, hstatement]
  rfl

/-- **A clause with a full stop behind it is read as one statement.** -/
theorem single?_clause {r : Registry} {c : Clause W} (hc : c.IsSaid r) :
    ∃ text, single? (c.text ++ ".") = some (c.head.statement text c.ending) := by
  have hw := hc.isProper
  by_cases hbody : c.body = []
  · rw [Clause.text, Clause.ending, if_pos (by simpa using hbody), if_pos (by simpa using hbody)]
    exact single?_text hc.head hw (ends_of_mark (c := '.') (.inr (.inl rfl)) []) rfl (String.toList_append ..)
  · rw [Clause.text, Clause.ending, if_neg (by simpa using hbody), if_neg (by simpa using hbody)]
    have hends : ∀ cs, Ends (' ' :: ':' :: cs) := fun cs => by
      refine ⟨fun x hx => by obtain rfl : ' ' = x := Option.some.inj hx; rfl, ?_⟩
      rw [skip_blank, Inked.skip ⟨':', cs, rfl, by decide, by decide⟩]
      rfl
    refine single?_text hc.head hw
      (hends ('-' :: ' ' :: ((String.intercalate ", " (c.body.map Literal.text)).toList ++ ['.']))) ?_ ?_
    · rw [skip_blank, Inked.skip ⟨':', _, rfl, by decide, by decide⟩]
      exact ending_rule hc.body hbody
    · simp only [String.toList_append, List.append_assoc]
      rfl

/-- **So is a query with its question mark.** -/
theorem single?_query (hl : l.IsSaid) : ∃ text, single? (l.text ++ "?") = some (l.statement text .query) := by
  exact single?_text hl.spelled hl.isProper (ends_of_mark (c := '?') (.inr (.inr rfl)) []) rfl (String.toList_append ..)

end Statements

end Grammar
end Credence
