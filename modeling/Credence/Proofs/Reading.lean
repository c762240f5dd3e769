import Credence.Program
import Credence.Proofs.Standing
/-!
# What a text can say

Whatever is read from a text is written in names and constants of the language: a name starts with a small letter, and a
constant is a number or a word that reads back as itself, for a text in quotes is kept wrapped when it cannot stand bare
(`Constant.isWord_ofText`).  Facts have no variables and rules have passed the check and stand in running order
(`Clause.IsSaid`).  So much is known of every clause and every query of a program (`Program.isSaid_of_read`).
-/
namespace Credence

/-! ## Constants -/

theorem isWordChar_of_isDigit {c : Char} (h : c.isDigit = true) : Constant.isWordChar c = true := by
  simp [Constant.isWordChar, Char.isAlphanum, h]

theorem isWordChar_base64 (n : Nat) : Constant.isWordChar (Text.Base64.digit n) = true := by
  unfold Text.Base64.digit
  split
  · have : ∀ m < 26, Constant.isWordChar (Char.ofNat (65 + m)) = true := by decide
    exact this n ‹_›
  · split
    · have : ∀ m < 26, Constant.isWordChar (Char.ofNat (97 + m)) = true := by decide
      exact this (n - 26) (by omega)
    · split
      · have : ∀ m < 10, Constant.isWordChar (Char.ofNat (48 + m)) = true := by decide
        exact this (n - 52) (by omega)
      · split <;> rfl

theorem isWordChar_of_mem_encode : ∀ (bs : List UInt8), ∀ c ∈ Text.Base64.encode bs, Constant.isWordChar c = true
  | a :: b :: c :: rest => by
    intro x hx
    simp only [Text.Base64.encode, List.mem_cons] at hx
    rcases hx with rfl | rfl | rfl | rfl | hx
    · exact isWordChar_base64 _
    · exact isWordChar_base64 _
    · exact isWordChar_base64 _
    · exact isWordChar_base64 _
    · exact isWordChar_of_mem_encode rest x hx
  | [a, b] => by
    intro x hx
    simp only [Text.Base64.encode, List.mem_cons, List.not_mem_nil, or_false] at hx
    rcases hx with rfl | rfl | rfl <;> exact isWordChar_base64 _
  | [a] => by
    intro x hx
    simp only [Text.Base64.encode, List.mem_cons, List.not_mem_nil, or_false] at hx
    rcases hx with rfl | rfl <;> exact isWordChar_base64 _
  | [] => fun x hx => nomatch hx

namespace Constant

theorem isPlain_iff {c : Constant} : c.isPlain = true ↔ ∃ x xs, c.printed.toList = x :: xs ∧ x ≠ '_' ∧
    ∀ y ∈ x :: xs, isWordChar y = true ∨ y = '.' := by
  cases h : c.printed.toList with
  | nil => simp [isPlain, h]
  | cons x xs => simp [isPlain, h, List.all_eq_true, and_comm]

/-- What is left of a number without its sign. -/
theorem isUnsigned_iff {cs : List Char} : (isDigitRun (cs.takeWhile (· != '.')) && (match cs.dropWhile (· != '.') with
      | []      => true
      | _ :: ds => isDigitRun ds)) = true ↔
    ∃ whole tail, cs = whole ++ tail ∧ isDigitRun whole = true ∧ (tail = [] ∨ ∃ ds, tail = '.' :: ds ∧ isDigitRun ds = true) := by
  rw [Bool.and_eq_true]
  constructor
  · rintro ⟨hwhole, htail⟩
    refine ⟨_, _, List.takeWhile_append_dropWhile.symm, hwhole, ?_⟩
    cases hd : cs.dropWhile (· != '.') with
    | nil => exact .inl rfl
    | cons p ds =>
      have hp : (p != '.') = false := by
        have := List.head?_dropWhile_not (p := fun x : Char => x != '.') (l := cs)
        rw [hd] at this
        simpa using this
      rw [hd] at htail
      exact .inr ⟨ds, by rw [show p = '.' by simpa using hp], htail⟩
  · rintro ⟨whole, tail, rfl, hwhole, htail⟩
    have hdigits : ∀ x ∈ whole, (x != '.') = true := by
      intro x hx
      simp only [isDigitRun, Bool.and_eq_true] at hwhole
      have hdigit := List.all_eq_true.1 hwhole.2 x hx
      simp only [bne_iff_ne, ne_eq]
      rintro rfl
      exact absurd hdigit (by decide)
    rw [List.takeWhile_append_of_pos hdigits, List.dropWhile_append_of_pos hdigits]
    rcases htail with rfl | ⟨ds, rfl, hds⟩
    · simpa using hwhole
    · simpa using ⟨hwhole, hds⟩

/-- A number is a sign, digits, and perhaps a point with digits behind it. -/
theorem isNumber_iff {cs : List Char} : isNumber cs = true ↔ ∃ sign whole tail, cs = sign ++ (whole ++ tail) ∧
    (sign = [] ∨ sign = ['-']) ∧ isDigitRun whole = true ∧ (tail = [] ∨ ∃ ds, tail = '.' :: ds ∧ isDigitRun ds = true) := by
  unfold isNumber
  simp only
  split
  · refine isUnsigned_iff.trans ?_
    constructor
    · rintro ⟨whole, tail, rfl, hwhole, htail⟩
      exact ⟨['-'], whole, tail, rfl, .inr rfl, hwhole, htail⟩
    · rintro ⟨sign, whole, tail, e, rfl | rfl, hwhole, htail⟩
      · -- digits do not begin with a minus
        cases whole with
        | nil => simp [isDigitRun] at hwhole
        | cons x xs =>
          simp only [List.nil_append, List.cons_append, List.cons.injEq] at e
          obtain ⟨rfl, -⟩ := e
          simp only [isDigitRun, List.isEmpty_cons, Bool.not_false, Bool.true_and, List.all_cons, Bool.and_eq_true] at hwhole
          exact absurd hwhole.1 (by decide)
      · simp only [List.singleton_append, List.cons.injEq, true_and] at e
        exact ⟨whole, tail, e, hwhole, htail⟩
  · rename_i hne
    refine isUnsigned_iff.trans ?_
    constructor
    · rintro ⟨whole, tail, rfl, hwhole, htail⟩
      exact ⟨[], whole, tail, rfl, .inl rfl, hwhole, htail⟩
    · rintro ⟨sign, whole, tail, rfl, rfl | rfl, hwhole, htail⟩
      · exact ⟨whole, tail, rfl, hwhole, htail⟩
      · exact absurd rfl (hne _)

theorem digit_of_isDigitRun {ds : List Char} (h : isDigitRun ds = true) : ds ≠ [] ∧ ∀ x ∈ ds, x.isDigit = true := by
  simp only [isDigitRun, Bool.and_eq_true, Bool.not_eq_true', List.isEmpty_eq_false_iff] at h
  exact ⟨h.1, List.all_eq_true.1 h.2⟩

/-- A number, or a word that is not taken for a variable or a wildcard. -/
def isWord (c : Constant) : Bool :=
  isNumber c.printed.toList ||
    match c.printed.toList with
    | []      => false
    | x :: xs => !x.isUpper && x != '_' && (x :: xs).all isWordChar

/-- A number has digits, a point and a minus only. -/
theorem isPlain_of_isNumber {s : String} (h : isNumber s.toList = true) : (⟨s⟩ : Constant).isPlain = true := by
  obtain ⟨sign, whole, tail, hs, hsign, hwhole, htail⟩ := isNumber_iff.1 h
  obtain ⟨hne, hdigits⟩ := digit_of_isDigitRun hwhole
  have htail : ∀ x ∈ tail, isWordChar x = true ∨ x = '.' := by
    intro x hx
    rcases htail with rfl | ⟨ds, rfl, hds⟩
    · cases hx
    · rcases List.mem_cons.1 hx with rfl | hx
      · exact .inr rfl
      · exact .inl (isWordChar_of_isDigit ((digit_of_isDigitRun hds).2 x hx))
  have hbody : ∀ x ∈ whole ++ tail, isWordChar x = true ∨ x = '.' := by
    intro x hx
    rcases List.mem_append.1 hx with hx | hx
    · exact .inl (isWordChar_of_isDigit (hdigits x hx))
    · exact htail x hx
  rw [isPlain_iff]
  rcases hsign with rfl | rfl
  · obtain ⟨x, xs, rfl⟩ := List.exists_cons_of_ne_nil hne
    refine ⟨x, xs ++ tail, by simpa using hs, ?_, hbody⟩
    rintro rfl
    exact absurd (hdigits '_' List.mem_cons_self) (by decide)
  · refine ⟨'-', whole ++ tail, by simpa using hs, by decide, fun x hx => ?_⟩
    rcases List.mem_cons.1 hx with rfl | hx
    · exact .inl (by decide)
    · exact hbody x hx

theorem isPlain_of_isWord {c : Constant} (h : c.isWord = true) : c.isPlain = true := by
  unfold isWord at h
  rcases Bool.or_eq_true_iff.1 h with h | h
  · exact isPlain_of_isNumber h
  · rw [isPlain_iff]
    split at h
    · cases h
    · rename_i x xs hs
      simp only [Bool.and_eq_true, bne_iff_ne, ne_eq] at h
      exact ⟨x, xs, hs, h.1.2, fun y hy => .inl (List.all_eq_true.1 h.2 y hy)⟩

/-- **Any text makes a constant that reads back as itself.** -/
theorem isWord_ofText (s : String) : (ofText s).isWord = true := by
  unfold ofText
  split
  · rename_i h
    unfold isBare at h
    unfold isWord
    split at h
    · cases h
    · split at h
      · rename_i hn
        rw [hn, Bool.true_or]
      · rw [Bool.or_eq_true_iff]
        exact .inr h
  · have hlist : (wrapMark ++ Text.Base64.encodeText s).toList = 'b' :: ('6' :: '4' :: '_' :: Text.Base64.encode s.toUTF8.toList) := by
      simp [wrapMark, Text.Base64.encodeText, String.toList_append]
    unfold isWord
    rw [Bool.or_eq_true_iff, hlist]
    refine .inr ?_
    have hall : ('b' :: '6' :: '4' :: '_' :: Text.Base64.encode s.toUTF8.toList).all isWordChar = true := by
      refine List.all_eq_true.2 (fun x hx => ?_)
      simp only [List.mem_cons] at hx
      rcases hx with rfl | rfl | rfl | rfl | hx
      · decide
      · decide
      · decide
      · decide
      · exact isWordChar_of_mem_encode _ x hx
    simp only [hall, Bool.and_true]
    decide

theorem isPlain_ofText (s : String) : (ofText s).isPlain = true := isPlain_of_isWord (isWord_ofText s)

end Constant

/-! ## Words -/

namespace Grammar

def Lexeme.IsSpelled : Lexeme → Prop
  | .number s => (⟨s⟩ : Constant).isWord = true
  | .word s   => (⟨s⟩ : Constant).isWord = true
  | _         => True

theorem isName_of_name {cs rest : List Char} {s : String} (h : name cs = some (s, rest)) : Predicate.isName s = true := by
  unfold name at h
  split at h
  · cases h
  · split at h
    · rename_i hl
      injection h with h
      injection h with h
      subst h
      simp only [Predicate.isName, String.toList_ofList, hl, Bool.true_and]
      exact List.all_takeWhile
    · cases h

theorem isName_of_callName {cs rest : List Char} {s : String} (h : callName cs = some (s, rest)) :
    Predicate.isName s = true := by
  unfold callName at h
  obtain ⟨after, -, h⟩ := Option.bind_eq_some_iff.1 h
  dsimp only at h
  split at h
  · cases h
  · injection h with h
    injection h with h
    subst h
    have hall : ((['n', '_'] ++ after.takeWhile isNameChar).all isNameChar) = true := by
      rw [List.all_append, List.all_takeWhile]
      decide
    simp only [Predicate.isName, String.toList_append, String.toList_ofList]
    exact hall

theorem fraction_spec (cs : List Char) : (fraction cs).1 ++ (fraction cs).2 = cs ∧
    ((fraction cs).1 = [] ∨ ∃ ds, (fraction cs).1 = '.' :: ds ∧ Constant.isDigitRun ds = true) := by
  unfold fraction
  split
  · rename_i rest
    split
    · exact ⟨rfl, .inl rfl⟩
    · rename_i hne
      refine ⟨by simp, .inr ⟨_, rfl, ?_⟩⟩
      simp only [Constant.isDigitRun, Bool.and_eq_true, Bool.not_eq_true', List.all_takeWhile, and_true]
      exact Bool.eq_false_iff.2 hne
  · exact ⟨rfl, .inl rfl⟩

/-- A number is looked for behind the minus, if there is one. -/
theorem number_eq (cs : List Char) : ∃ sign digits, cs = sign ++ digits ∧
    (sign = [] ∧ digits.head? ≠ some '-' ∨ sign = ['-']) ∧
    number cs =
      if (digits.takeWhile Char.isDigit).isEmpty || startsWord (fraction (digits.dropWhile Char.isDigit)).2 then none
      else some (String.ofList (sign ++ digits.takeWhile Char.isDigit ++ (fraction (digits.dropWhile Char.isDigit)).1),
        (fraction (digits.dropWhile Char.isDigit)).2) := by
  unfold number
  dsimp only
  split
  · rename_i rest
    exact ⟨['-'], rest, rfl, .inr rfl, rfl⟩
  · rename_i hne
    refine ⟨[], cs, rfl, .inl ⟨rfl, fun h => ?_⟩, rfl⟩
    obtain ⟨rest, rfl⟩ := List.head?_eq_some_iff.1 h
    exact hne rest rfl

/-- What is read as a number is one, and no word runs on from it. -/
theorem number_spec {cs rest : List Char} {s : String} (h : number cs = some (s, rest)) :
    cs = s.toList ++ rest ∧ Constant.isNumber s.toList = true ∧ startsWord rest = false := by
  obtain ⟨sign, digits, rfl, hsign, e⟩ := number_eq cs
  rw [e] at h
  split at h
  · cases h
  · rename_i hne
    simp only [Bool.or_eq_true, not_or, Bool.not_eq_true] at hne
    obtain ⟨hsplit, htail⟩ := fraction_spec (digits.dropWhile Char.isDigit)
    injection h with h
    injection h with hs hrest
    subst hs hrest
    refine ⟨?_, Constant.isNumber_iff.2 ⟨sign, digits.takeWhile Char.isDigit, _, ?_, hsign.imp And.left id, ?_, htail⟩, hne.2⟩
    · rw [String.toList_ofList, List.append_assoc, List.append_assoc, hsplit, List.takeWhile_append_dropWhile]
    · rw [String.toList_ofList, List.append_assoc]
    · rw [Constant.isDigitRun, hne.1, List.all_takeWhile]
      rfl

theorem isWord_of_number {cs rest : List Char} {s : String} (h : number cs = some (s, rest)) :
    (⟨s⟩ : Constant).isWord = true := by
  rw [Constant.isWord, (number_spec h).2.1, Bool.true_or]

/-- A bare word is reached only where neither a variable nor a wildcard stands. -/
theorem isSpelled_of_term {cs rest : List Char} {t : Lexeme} (h : term cs = some (t, rest)) : t.IsSpelled := by
  unfold term at h
  rw [Option.orElse_eq_some] at h
  rcases h with h | ⟨-, h⟩
  · unfold quoted at h
    split at h
    · cases h
    · split at h
      · obtain ⟨p, -, e⟩ := Option.map_eq_some_iff.1 h
        injection e with e
        subst e
        trivial
      · cases h
  rw [Option.orElse_eq_some] at h
  rcases h with h | ⟨-, h⟩
  · obtain ⟨p, hp, e⟩ := Option.map_eq_some_iff.1 h
    injection e with e
    subst e
    exact isWord_of_number hp
  rw [Option.orElse_eq_some] at h
  rcases h with h | ⟨hvar, h⟩
  · obtain ⟨p, -, e⟩ := Option.map_eq_some_iff.1 h
    injection e with e
    subst e
    trivial
  rw [Option.orElse_eq_some] at h
  rcases h with h | ⟨hwild, h⟩
  · unfold wildcard at h
    split at h
    · injection h with h
      injection h with h
      subst h
      trivial
    · cases h
  · unfold word at h
    dsimp only at h
    split at h
    · cases h
    · rename_i hne
      injection h with h
      injection h with h
      subst h
      show (⟨String.ofList (cs.takeWhile Constant.isWordChar)⟩ : Constant).isWord = true
      cases cs with
      | nil => exact absurd rfl hne
      | cons x xs =>
        rw [List.takeWhile_cons] at hne ⊢
        split at hne
        · rename_i hx
          have hupper : x.isUpper = false := by
            cases hu : x.isUpper with
            | false => rfl
            | true => simp [variableName, hu] at hvar
          have hblank : x ≠ '_' := by
            rintro rfl
            cases hwild
          rw [if_pos hx, Constant.isWord, Bool.or_eq_true_iff, String.toList_ofList]
          refine .inr ?_
          simp only [hupper, Bool.not_false, Bool.true_and, Bool.and_eq_true, bne_iff_ne, ne_eq, List.all_cons, hx,
            List.all_takeWhile, and_true]
          exact hblank
        · exact absurd rfl hne

/-! ## Statements -/

mutual

def Operand.IsSpelled : Operand → Prop
  | .term t         => t.IsSpelled
  | .call name args => Predicate.isName name = true ∧ Operand.AllSpelled args

def Operand.AllSpelled : List Operand → Prop
  | []      => True
  | a :: as => a.IsSpelled ∧ Operand.AllSpelled as

end

def Item.IsSpelled : Item → Prop
  | .assignment _ value      => value.IsSpelled
  | .comparison left _ right => left.IsSpelled ∧ right.IsSpelled
  | .atom _ name args        => Predicate.isName name = true ∧ Operand.AllSpelled args

def Ending.IsSpelled : Ending → Prop
  | .query     => True
  | .fact      => True
  | .rule body => body ≠ [] ∧ ∀ i ∈ body, i.IsSpelled

structure Statement.IsSpelled (s : Statement) : Prop where
  name   : Predicate.isName s.name = true
  args   : ∀ t ∈ s.args, t.IsSpelled
  ending : s.ending.IsSpelled

theorem Operand.allSpelled_iff : ∀ {as : List Operand}, Operand.AllSpelled as ↔ ∀ a ∈ as, a.IsSpelled
  | []      => by simp [Operand.AllSpelled]
  | a :: as => by rw [Operand.AllSpelled, allSpelled_iff, List.forall_mem_cons]

/-- The reader of a list reads entries with commas between them, and keeps no comma that no entry follows. -/
structure Lists {α : Type} (list : Nat → List Char → List α × List Char) (entry : Nat → Reader α) : Prop where
  zero  : ∀ {cs : List Char}, list 0 cs = ([], cs)
  none  : ∀ {fuel : Nat} {cs : List Char}, entry fuel cs = .none → list (fuel + 1) cs = ([], cs)
  last  : ∀ {fuel : Nat} {cs rest : List Char} {a : α}, entry fuel cs = some (a, rest) →
    token "," (skip rest) = .none → list (fuel + 1) cs = ([a], rest)
  comma : ∀ {fuel : Nat} {cs rest after rest' : List Char} {a : α}, entry fuel cs = some (a, rest) →
    token "," (skip rest) = some after → list fuel (skip after) = ([], rest') → list (fuel + 1) cs = ([a], rest)
  more  : ∀ {fuel : Nat} {cs rest after rest' : List Char} {a b : α} {bs : List α}, entry fuel cs = some (a, rest) →
    token "," (skip rest) = some after → list fuel (skip after) = (b :: bs, rest') →
    list (fuel + 1) cs = (a :: b :: bs, rest')

theorem lists_terms : Lists terms (fun _ => term) :=
  ⟨rfl, fun h => by simp only [terms, h], fun h h' => by simp only [terms, h, h'],
    fun h h' h'' => by simp only [terms, h, h', h''], fun h h' h'' => by simp only [terms, h, h', h'']⟩

theorem lists_operands : Lists operands operand :=
  ⟨rfl, fun h => by simp only [operands, h], fun h h' => by simp only [operands, h, h'],
    fun h h' h'' => by simp only [operands, h, h', h''], fun h h' h'' => by simp only [operands, h, h', h'']⟩

theorem lists_items : Lists items (fun _ => item) :=
  ⟨rfl, fun h => by simp only [items, h], fun h h' => by simp only [items, h, h'],
    fun h h' h'' => by simp only [items, h, h', h''], fun h h' h'' => by simp only [items, h, h', h'']⟩

/-- Whatever is in the list has been read as an entry. -/
theorem Lists.mem {α : Type} {list : Nat → List Char → List α × List Char} {entry : Nat → Reader α} (h : Lists list entry)
    {x : α} : ∀ {fuel : Nat} {cs : List Char}, x ∈ (list fuel cs).1 → ∃ n < fuel, ∃ cs' rest, entry n cs' = some (x, rest)
  | 0,        cs, hx => by
    rw [h.zero] at hx
    cases hx
  | fuel + 1, cs, hx => by
    cases hentry : entry fuel cs with
    | none =>
      rw [h.none hentry] at hx
      cases hx
    | some p =>
      obtain ⟨a, rest⟩ := p
      have hfirst : x = a → ∃ n < fuel + 1, ∃ cs' rest, entry n cs' = some (x, rest) :=
        fun e => ⟨fuel, Nat.lt_succ_self _, cs, rest, e ▸ hentry⟩
      cases htoken : token "," (skip rest) with
      | none =>
        rw [h.last hentry htoken] at hx
        exact hfirst (List.mem_singleton.1 hx)
      | some after =>
        cases hlist : list fuel (skip after) with
        | mk bs rest' =>
          cases bs with
          | nil =>
            rw [h.comma hentry htoken hlist] at hx
            exact hfirst (List.mem_singleton.1 hx)
          | cons b bs =>
            rw [h.more hentry htoken hlist] at hx
            rcases List.mem_cons.1 hx with hx | hx
            · exact hfirst hx
            · obtain ⟨n, hn, found⟩ := h.mem (show x ∈ (list fuel (skip after)).1 by rw [hlist]; exact hx)
              exact ⟨n, Nat.lt_succ_of_lt hn, found⟩

/-- An operand nests as deep as there is fuel, and its arguments have been read with less. -/
theorem isSpelled_of_operand : ∀ {fuel : Nat} {cs rest : List Char} {a : Operand}, operand fuel cs = some (a, rest) →
    a.IsSpelled
  | 0,        _, _, _, h => nomatch h
  | fuel + 1, _, _, a, h => by
    rw [operand, Option.orElse_eq_some] at h
    rcases h with h | ⟨-, h⟩
    · split at h
      · cases h
      · rename_i hc
        obtain ⟨r₁, -, h⟩ := Option.bind_eq_some_iff.1 h
        obtain ⟨r₂, -, e⟩ := Option.map_eq_some_iff.1 h
        injection e with e
        subst e
        refine ⟨isName_of_callName hc, Operand.allSpelled_iff.2 (fun b hb => ?_)⟩
        obtain ⟨n, hn, cs', rest', hread⟩ := lists_operands.mem hb
        exact isSpelled_of_operand hread
    · obtain ⟨p, hp, e⟩ := Option.map_eq_some_iff.1 h
      injection e with e
      subst e
      exact isSpelled_of_term hp
termination_by fuel => fuel

theorem isSpelled_of_operands {fuel : Nat} {cs : List Char} : Operand.AllSpelled (operands fuel cs).1 :=
  Operand.allSpelled_iff.2 (fun _ ha => by
    obtain ⟨_, -, _, _, hread⟩ := lists_operands.mem ha
    exact isSpelled_of_operand hread)

/-- What stands in parentheses is nothing, or what the reader of lists gives. -/
theorem parenthesized_cases {α : Type} (list : List Char → List α × List Char) (cs : List Char) :
    (parenthesized list cs).1 = [] ∨ ∃ cs', (parenthesized list cs).1 = (list cs').1 := by
  unfold parenthesized
  dsimp only
  cases h : (token "(" (skip cs)) with
  | none => exact .inl rfl
  | some rest =>
    cases h' : token ")" (skip (list (skip rest)).2) with
    | none =>
      refine .inl ?_
      simp [h']
    | some rest' =>
      refine .inr ⟨skip rest, ?_⟩
      simp [h']

theorem isSpelled_of_item {cs rest : List Char} {i : Item} (h : item cs = some (i, rest)) : i.IsSpelled := by
  unfold item at h
  rw [Option.orElse_eq_some] at h
  rcases h with h | ⟨-, h⟩
  · unfold assignment at h
    obtain ⟨⟨x, r₁⟩, -, h⟩ := Option.bind_eq_some_iff.1 h
    obtain ⟨r₂, -, h⟩ := Option.bind_eq_some_iff.1 h
    obtain ⟨⟨v, r₃⟩, hv, h⟩ := Option.bind_eq_some_iff.1 h
    injection h with h
    injection h with h
    subst h
    exact isSpelled_of_operand hv
  rw [Option.orElse_eq_some] at h
  rcases h with h | ⟨-, h⟩
  · unfold comparison at h
    obtain ⟨⟨x, r₁⟩, hx, h⟩ := Option.bind_eq_some_iff.1 h
    obtain ⟨⟨sign, r₂⟩, -, h⟩ := Option.bind_eq_some_iff.1 h
    obtain ⟨⟨y, r₃⟩, hy, h⟩ := Option.bind_eq_some_iff.1 h
    injection h with h
    injection h with h
    subst h
    exact ⟨isSpelled_of_operand hx, isSpelled_of_operand hy⟩
  · unfold bodyAtom at h
    obtain ⟨⟨s, r₁⟩, hs, h⟩ := Option.bind_eq_some_iff.1 h
    injection h with h
    injection h with h
    subst h
    have hargs : Operand.AllSpelled (parenthesized (operands (r₁.length + 1)) r₁).1 := by
      rcases parenthesized_cases (operands (r₁.length + 1)) r₁ with e | ⟨cs', e⟩
      · rw [e]
        trivial
      · rw [e]
        exact isSpelled_of_operands
    exact ⟨isName_of_name hs, hargs⟩

theorem isSpelled_of_items (fuel : Nat) (cs : List Char) : ∀ i ∈ (items fuel cs).1, i.IsSpelled := by
  intro i hi
  obtain ⟨-, -, _, _, hread⟩ := lists_items.mem hi
  exact isSpelled_of_item hread

theorem isSpelled_of_terms (fuel : Nat) (cs : List Char) : ∀ t ∈ (terms fuel cs).1, t.IsSpelled := by
  intro t ht
  obtain ⟨-, -, _, _, hread⟩ := lists_terms.mem ht
  exact isSpelled_of_term hread

theorem isSpelled_of_ending {cs rest : List Char} {e : Ending} (h : ending cs = some (e, rest)) : e.IsSpelled := by
  unfold ending at h
  rw [Option.orElse_eq_some] at h
  rcases h with h | ⟨-, h⟩
  · obtain ⟨p, -, e⟩ := Option.map_eq_some_iff.1 h
    injection e with e
    subst e
    trivial
  rw [Option.orElse_eq_some] at h
  rcases h with h | ⟨-, h⟩
  · unfold rule at h
    obtain ⟨r₁, -, h⟩ := Option.bind_eq_some_iff.1 h
    obtain ⟨⟨is, r₂⟩, hb, h⟩ := Option.bind_eq_some_iff.1 h
    obtain ⟨r₃, -, h⟩ := Option.bind_eq_some_iff.1 h
    injection h with h
    injection h with h
    subst h
    unfold body at hb
    split at hb
    · cases hb
    · rename_i is' rest' hne hn
      injection hb with hb
      injection hb with hb
      subst hb
      have := isSpelled_of_items ((skip r₁).length + 1) (skip r₁)
      rw [hn] at this
      exact ⟨hne, this⟩
  · obtain ⟨p, -, e⟩ := Option.map_eq_some_iff.1 h
    injection e with e
    subst e
    trivial

theorem isSpelled_of_statement {cs rest : List Char} {s : Statement} (h : statement cs = some (s, rest)) : s.IsSpelled := by
  unfold statement at h
  obtain ⟨⟨n, r₁⟩, hn, h⟩ := Option.bind_eq_some_iff.1 h
  obtain ⟨⟨e, r₂⟩, he, h⟩ := Option.bind_eq_some_iff.1 h
  have hargs : ∀ t ∈ (parenthesized (terms (r₁.length + 1)) r₁).1, t.IsSpelled := by
    rcases parenthesized_cases (terms (r₁.length + 1)) r₁ with e | ⟨cs', e⟩
    · rw [e]
      exact fun t ht => nomatch ht
    · rw [e]
      exact isSpelled_of_terms _ cs'
  injection h with h
  injection h with h
  subst h
  exact ⟨isName_of_name hn, hargs, isSpelled_of_ending he⟩

theorem isSpelled_of_statements : ∀ (fuel : Nat) (cs : List Char) {ss : List Statement}, statements fuel cs = some ss →
    ∀ s ∈ ss, s.IsSpelled
  | 0, _, _, h => nomatch h
  | fuel + 1, cs, ss, h => by
    rw [statements] at h
    split at h
    · injection h with h
      subst h
      exact fun s hs => nomatch hs
    · split at h
      · cases h
      · rename_i hs
        obtain ⟨rest, hrest, e⟩ := Option.map_eq_some_iff.1 h
        subst e
        intro s hm
        rcases List.mem_cons.1 hm with rfl | hm
        · exact isSpelled_of_statement hs
        · exact isSpelled_of_statements fuel _ hrest s hm

end Grammar

/-! ## Clauses and queries -/

def Term.isSpelled : Term → Bool
  | .const c => c.isWord
  | .var _   => true

/-- A literal as it can be written: a name of the language that passed its check, and words. -/
structure Literal.IsSpelled {W : Type} (l : Literal W) : Prop where
  plain   : l.isPlain = true
  words   : ∀ t ∈ l.terms, t.isSpelled = true
  checked : l.predicate.check = .ok l.predicate

/-- A literal as it is read, without a weight. -/
structure Literal.IsSaid {W : Type} [Weight W] (l : Literal W) : Prop where
  spelled : l.IsSpelled
  weight  : l.weight = 1

/-- A clause as it is read: a fact without variables, or a rule that passed the check and stands in running order. -/
structure Clause.IsSaid {W : Type} [Weight W] (r : Registry) (c : Clause W) : Prop where
  head   : c.head.IsSpelled
  weight : c.head.weight = 1 ∨ Weight.isProper c.head.weight = true
  body   : ∀ l ∈ c.body, l.IsSaid
  fact   : c.body = [] → c.head.isGrounded = true
  rule   : c.body ≠ [] → c.checkRule r = .ok () ∧ c.reorder r = .ok c

/-- A query as it is read: a negation has no variables. -/
structure Literal.IsAsked {W : Type} [Weight W] (l : Literal W) : Prop where
  said   : l.IsSaid
  closed : l.isNegated = true → l.isSemiGrounded = true

theorem Clause.IsSaid.isPlain {W : Type} [Weight W] {r : Registry} {c : Clause W} (h : c.IsSaid r) : c.isPlain = true := by
  simp only [Clause.isPlain, Bool.and_eq_true, List.all_eq_true]
  exact ⟨h.head.plain, fun l hl => (h.body l hl).spelled.plain⟩

variable {W : Type}

namespace Building

/-- Whatever the builder gives, it is so. -/
def Yields {α : Type} (P : α → Prop) (m : Building α) : Prop := ∀ s x s', m s = .ok (x, s') → P x

variable {α β : Type} {P : α → Prop} {Q : β → Prop}

theorem Yields.pure {x : α} (h : P x) : Yields P (Pure.pure x) := by
  intro s y s' e
  injection e with e
  injection e with e
  exact e ▸ h

theorem bind_eq_ok_iff {m : Building α} {f : α → Building β} {s : Scope} {p : β × Scope} :
    (m >>= f) s = .ok p ↔ ∃ x s', m s = .ok (x, s') ∧ f x s' = .ok p := by
  show (m s).bind (fun p => f p.1 p.2) = _ ↔ _
  cases m s with
  | error e => exact ⟨fun h => (by cases h), fun ⟨_, _, h, _⟩ => (by cases h)⟩
  | ok q =>
    refine ⟨fun h => ⟨q.1, q.2, rfl, h⟩, fun ⟨_, _, h, hf⟩ => ?_⟩
    cases h
    exact hf

theorem lift_eq_ok_iff {x : Except Error α} {s : Scope} {p : α × Scope} :
    (liftM x : Building α) s = .ok p ↔ x = .ok p.1 ∧ p.2 = s := by
  show x.bind (fun a => .ok (a, s)) = _ ↔ _
  cases x with
  | error e => exact ⟨fun h => (by cases h), fun ⟨h, _⟩ => (by cases h)⟩
  | ok a =>
    obtain ⟨b, s'⟩ := p
    refine ⟨fun h => (by cases h; exact ⟨rfl, rfl⟩), fun ⟨h, h'⟩ => ?_⟩
    cases h
    cases h'
    rfl

theorem Yields.bind {m : Building α} {f : α → Building β} (h : Yields P m) (hf : ∀ x, P x → Yields Q (f x)) :
    Yields Q (m >>= f) := by
  intro s y s' e
  obtain ⟨x, s₁, hm, hfx⟩ := bind_eq_ok_iff.1 e
  exact hf x (h s x s₁ hm) s₁ y s' hfx

theorem Yields.lift {x : Except Error α} (h : ∀ a, x = .ok a → P a) : Yields P (liftM x : Building α) :=
  fun _ y _ e => h y (lift_eq_ok_iff.1 e).1

theorem Yields.throw {e : Error} : Yields P (throw e : Building α) := by
  intro s y s' h
  cases h

def SpelledTerms (ts : List Term) : Prop := ∀ t ∈ ts, t.isSpelled = true

def SaidLiterals [Weight W] (ls : List (Literal W)) : Prop := ∀ l ∈ ls, l.IsSaid

theorem SaidLiterals.append [Weight W] {ls ms : List (Literal W)} (h : SaidLiterals ls) (h' : SaidLiterals ms) :
    SaidLiterals (ls ++ ms) := by
  intro l hl
  rcases List.mem_append.1 hl with hl | hl
  · exact h l hl
  · exact h' l hl

theorem isPlain_of_isName {s : String} (h : Predicate.isName s = true) (n : Nat) : (⟨s, n⟩ : Predicate).isPlain = true := by
  rw [Predicate.isPlain, Predicate.base_of_not_isNegated (Predicate.isName.not_negated h)]
  exact h

theorem isPlain_predicateName {s : String} (h : Predicate.isName s = true) (negated : Bool) (n : Nat) :
    (⟨predicateName negated s, n⟩ : Predicate).isPlain = true := by
  cases negated with
  | false => exact isPlain_of_isName h n
  | true =>
    have hbase : (⟨predicateName true s, n⟩ : Predicate).base = s := by
      simp only [predicateName, if_true, Predicate.base, Text.after?_append]
      rfl
    rw [Predicate.isPlain, hbase]
    exact h

theorem yields_fresh : Yields (fun t => t.isSpelled = true) fresh := by
  intro s t s' h
  injection h with h
  injection h with h
  exact h ▸ rfl

theorem yields_wildcard : Yields (fun t => t.isSpelled = true) wildcard := by
  intro s t s' h
  injection h with h
  injection h with h
  exact h ▸ rfl

theorem yields_named (name : String) : Yields (fun t => t.isSpelled = true) (named name) := by
  intro s t s' h
  unfold named at h
  split at h
  · injection h with h
    injection h with h
    exact h ▸ rfl
  · injection h with h
    injection h with h
    exact h ▸ rfl

theorem yields_term {t : Grammar.Lexeme} (h : t.IsSpelled) : Yields (fun t => t.isSpelled = true) (term t) := by
  cases t with
  | quoted inner =>
    have hword : (Term.const (.ofText (Text.unescape inner))).isSpelled = true := by
      rw [Term.isSpelled]
      exact Constant.isWord_ofText _
    exact .pure hword
  | number s => exact .pure h
  | named name => exact yields_named name
  | wildcard => exact yields_wildcard
  | word s => exact .pure h

theorem yields_terms : ∀ {ts : List Grammar.Lexeme}, (∀ t ∈ ts, t.IsSpelled) → Yields SpelledTerms (terms ts)
  | [], _ => .pure (fun t ht => nomatch ht)
  | t :: ts, h => by
    refine (yields_term (h t List.mem_cons_self)).bind (fun u hu => ?_)
    refine (yields_terms (fun t' ht' => h t' (List.mem_cons_of_mem _ ht'))).bind (fun us hus => .pure ?_)
    intro x hx
    rcases List.mem_cons.1 hx with rfl | hx
    · exact hu
    · exact hus x hx

variable [Weight W]

theorem isPlain_of_isSpelled {t : Term} (h : t.isSpelled = true) : t.isPlain = true := by
  cases t with
  | const c => exact Constant.isPlain_of_isWord h
  | var v => rfl

theorem isSaid_of_atom {name : String} {ts : List Term} {l : Literal W}
    (hn : (⟨name, ts.length⟩ : Predicate).isPlain = true) (ht : SpelledTerms ts) (h : Literal.atom name ts = .ok l) :
    l.IsSaid := by
  unfold Literal.atom at h
  cases hc : Predicate.check ⟨name, ts.length⟩ with
  | error e =>
    rw [hc] at h
    cases h
  | ok p =>
    have hp : p = ⟨name, ts.length⟩ := by
      unfold Predicate.check at hc
      split at hc
      · cases hc
      · injection hc with hc
        exact hc.symm
    subst hp
    rw [hc] at h
    injection h with h
    subst h
    refine ⟨⟨?_, ht, hc⟩, rfl⟩
    simp only [Literal.isPlain, Literal.isWellFormed, Bool.and_eq_true, beq_self_eq_true, and_true]
    exact ⟨hn, List.all_eq_true.2 (fun t h => isPlain_of_isSpelled (ht t h))⟩

theorem yields_atom {name : String} {ts : List Term} (hn : ∀ n, (⟨name, n⟩ : Predicate).isPlain = true)
    (ht : SpelledTerms ts) : Yields Literal.IsSaid (liftM (Literal.atom name ts : Except Error (Literal W))) :=
  .lift (fun _ h => isSaid_of_atom (hn _) ht h)

/-- A value and the literals that compute it. -/
def SpelledOperand (p : Term × List (Literal W)) : Prop := p.1.isSpelled = true ∧ SaidLiterals p.2

def SpelledOperands (p : List Term × List (Literal W)) : Prop := SpelledTerms p.1 ∧ SaidLiterals p.2

/-- Some literals. -/
def SaidBody (ls : List (Literal W)) : Prop := SaidLiterals ls ∧ ls ≠ []

theorem saidBody_snoc {ls : List (Literal W)} {l : Literal W} (h : SaidLiterals ls) (hl : l.IsSaid) : SaidBody (ls ++ [l]) :=
  ⟨h.append (fun _ hm => List.mem_singleton.1 hm ▸ hl), by simp⟩

theorem spelledTerms_cons {t : Term} {ts : List Term} (h : t.isSpelled = true) (hs : SpelledTerms ts) :
    SpelledTerms (t :: ts) := by
  intro x hx
  rcases List.mem_cons.1 hx with rfl | hx
  · exact h
  · exact hs x hx

mutual

theorem yields_operand : ∀ {a : Grammar.Operand}, a.IsSpelled → Yields (SpelledOperand (W := W)) (operand a)
  | .term t, h => by
    have h' : t.IsSpelled := by simpa [Grammar.Operand.IsSpelled] using h
    rw [operand]
    exact (yields_term h').bind (fun u hu => .pure ⟨hu, fun l hl => nomatch hl⟩)
  | .call name args, h => by
    have h' : Predicate.isName name = true ∧ Grammar.Operand.AllSpelled args := by
      simpa [Grammar.Operand.IsSpelled] using h
    rw [operand]
    refine (yields_operands h'.2).bind (fun p hp => ?_)
    refine yields_fresh.bind (fun out hout => ?_)
    refine (yields_atom (isPlain_of_isName h'.1) (spelledTerms_cons hout hp.1)).bind (fun l hl => .pure ⟨hout, ?_⟩)
    exact (saidBody_snoc hp.2 hl).1

theorem yields_operands : ∀ {as : List Grammar.Operand}, Grammar.Operand.AllSpelled as →
    Yields (SpelledOperands (W := W)) (operands as)
  | [], _ => by
    rw [operands]
    exact .pure ⟨(fun t ht => nomatch ht), fun l hl => nomatch hl⟩
  | a :: as, h => by
    have h' : a.IsSpelled ∧ Grammar.Operand.AllSpelled as := by simpa [Grammar.Operand.AllSpelled] using h
    rw [operands]
    refine (yields_operand h'.1).bind (fun p hp => ?_)
    refine (yields_operands h'.2).bind (fun ps hps => .pure ?_)
    exact ⟨spelledTerms_cons hp.1 hps.1, hp.2.append hps.2⟩

end

theorem isPlain_comparison (sign : Grammar.Comparison) :
    Predicate.isName (comparison sign).1 = true ∧ Predicate.isName (comparison sign).2 = true := by
  cases sign <;> decide

theorem yields_item {i : Grammar.Item} (h : i.IsSpelled) : Yields (SaidBody (W := W)) (item i) := by
  have hnil : SpelledTerms [] := fun t ht => nomatch ht
  cases i with
  | assignment target value =>
    cases value with
    | term t =>
      have h' : t.IsSpelled := by simpa [Grammar.Item.IsSpelled, Grammar.Operand.IsSpelled] using h
      unfold item
      refine (yields_named target).bind (fun out hout => (yields_term h').bind (fun u hu => ?_))
      refine (yields_atom (isPlain_of_isName (by decide)) (spelledTerms_cons hout (spelledTerms_cons hu hnil))).bind
        (fun l hl => .pure ?_)
      show SaidBody ([] ++ [l])
      exact saidBody_snoc (fun m hm => nomatch hm) hl
    | call name args =>
      have h' : Predicate.isName name = true ∧ Grammar.Operand.AllSpelled args := by
        simpa [Grammar.Item.IsSpelled, Grammar.Operand.IsSpelled] using h
      unfold item
      refine (yields_named target).bind (fun out hout => (yields_operands h'.2).bind (fun p hp => ?_))
      refine (yields_atom (isPlain_of_isName h'.1) (spelledTerms_cons hout hp.1)).bind (fun l hl => .pure ?_)
      exact saidBody_snoc hp.2 hl
  | comparison left sign right =>
    unfold item
    refine (yields_operand h.1).bind (fun x hx => (yields_operand h.2).bind (fun y hy => ?_))
    refine yields_fresh.bind (fun flag hflag => ?_)
    obtain ⟨h1, h2⟩ := isPlain_comparison sign
    refine (yields_atom (isPlain_of_isName h1)
      (spelledTerms_cons hflag (spelledTerms_cons hx.1 (spelledTerms_cons hy.1 hnil)))).bind
      (fun l hl => (yields_atom (isPlain_of_isName h2) (spelledTerms_cons hflag hnil)).bind (fun m hm => .pure ?_))
    refine ⟨(hx.2.append hy.2).append (fun k hk => ?_), by simp⟩
    rcases List.mem_cons.1 hk with rfl | hk
    · exact hl
    · exact List.mem_singleton.1 hk ▸ hm
  | atom negated name args =>
    unfold item
    refine (yields_operands h.2).bind (fun p hp => ?_)
    refine (yields_atom (isPlain_predicateName h.1 negated) hp.1).bind (fun l hl => .pure ?_)
    exact saidBody_snoc hp.2 hl

/-- As many literals as there are items, at least. -/
theorem yields_items : ∀ {is : List Grammar.Item}, (∀ i ∈ is, i.IsSpelled) →
    Yields (fun ls : List (Literal W) => SaidLiterals ls ∧ (is ≠ [] → ls ≠ [])) (items is)
  | [], _ => .pure ⟨(fun l hl => nomatch hl), fun h => absurd rfl h⟩
  | i :: is, h => by
    refine (yields_item (h i List.mem_cons_self)).bind (fun ls hls => ?_)
    refine (yields_items (fun j hj => h j (List.mem_cons_of_mem _ hj))).bind (fun ms hms => .pure ?_)
    exact ⟨hls.1.append hms.1, fun _ e => hls.2 (List.append_eq_nil_iff.1 e).1⟩

/-- What a statement says. -/
def SaidSentence (r : Registry) : Sentence W → Prop
  | .clause c => c.IsSaid r
  | .query l  => l.IsAsked

theorem isPlain_reorder {r : Registry} {c c' : Clause W} (h : c.reorder r = .ok c') (hc : c.isPlain = true) :
    c'.isPlain = true := by
  obtain ⟨hhead, hmem⟩ := Clause.mem_reorder h
  simp only [Clause.isPlain, Bool.and_eq_true, List.all_eq_true] at hc ⊢
  exact ⟨hhead ▸ hc.1, fun l hl => hc.2 l ((hmem l).1 hl)⟩

theorem yields_weight (s : Grammar.Statement) :
    Yields (fun w : Option W => ∀ x, w = some x → Weight.isProper x = true) (liftM (weight s : Except Error (Option W))) := by
  refine .lift (fun w h => ?_)
  unfold weight at h
  split at h
  · injection h with h
    exact h ▸ fun x hx => nomatch hx
  · split at h
    · cases h
    · rename_i w' _
      split at h
      · rename_i hproper
        injection h with h
        subst h
        intro x hx
        injection hx with hx
        exact hx ▸ hproper
      · cases h

/-- A rule that is let through has passed the check and stands in order. -/
theorem isSaid_of_rule {r : Registry} {c : Clause W} {x : Sentence W} (hhead : c.head.IsSpelled)
    (hweight : c.head.weight = 1 ∨ Weight.isProper c.head.weight = true) (hbody : SaidLiterals c.body) (hne : c.body ≠ [])
    (h : rule r c = .ok x) : SaidSentence r x := by
  unfold rule at h
  cases hcheck : c.checkRule r with
  | error e =>
    rw [hcheck] at h
    cases h
  | ok u =>
    rw [hcheck] at h
    cases hord : c.reorder r with
    | error e =>
      rw [hord] at h
      cases h
    | ok d =>
      rw [hord] at h
      injection h with h
      subst h
      obtain ⟨hd, hmem⟩ := Clause.mem_reorder hord
      refine ⟨hd ▸ hhead, hd ▸ hweight, fun l hl => hbody l ((hmem l).1 hl), fun hnil => ?_, fun _ =>
        ⟨(Clause.checkRule_reorder hord).2 hcheck, Clause.reorder_reorder hord⟩⟩
      obtain ⟨l, hl⟩ := List.exists_mem_of_ne_nil _ hne
      have hl' := (hmem l).2 hl
      rw [hnil] at hl'
      cases hl'

theorem yields_sentence {r : Registry} {s : Grammar.Statement} (h : s.IsSpelled) :
    Yields (SaidSentence (W := W) r) (sentence r s) := by
  unfold sentence
  refine (yields_weight s).bind (fun w hw => ?_)
  refine (yields_terms h.args).bind (fun ts hts => ?_)
  refine (yields_atom (isPlain_predicateName h.name s.negated) hts).bind (fun head hhead => ?_)
  have hweight : w.getD (1 : W) = 1 ∨ Weight.isProper (w.getD (1 : W)) = true := by
    cases w with
    | none => exact .inl rfl
    | some x => exact .inr (hw x rfl)
  have hweighted : ({ head with weight := w.getD 1 } : Literal W).IsSpelled := ⟨hhead.spelled.1, hhead.spelled.2, hhead.spelled.3⟩
  have hend := h.ending
  cases he : s.ending with
  | query =>
    refine .lift (fun x hx => ?_)
    unfold query at hx
    split at hx
    · cases hx
    · split at hx
      · cases hx
      · rename_i hclosed
        injection hx with hx
        subst hx
        exact ⟨hhead, fun hn => by simpa [hn] using hclosed⟩
  | fact =>
    dsimp only
    split
    · rename_i hground
      exact .pure ⟨hweighted, hweight, (fun l hl => nomatch hl), fun _ => hground, fun hne => absurd rfl hne⟩
    · exact .throw
  | rule body =>
    rw [he] at hend
    refine (yields_items hend.2).bind (fun ls hls => .lift (fun x hx => ?_))
    exact isSaid_of_rule hweighted hweight hls.1 (hls.2 hend.1) hx

end Building

namespace Program

variable [Weight W]

theorem isSaid_of_statements {r : Registry} : ∀ {pool : VarPool} {ss : List Grammar.Statement} {out : List (Sentence W)},
    ofStatements r pool ss = .ok out → (∀ s ∈ ss, s.IsSpelled) → ∀ x ∈ out, Building.SaidSentence r x
  | _, [], out, h, _ => by
    injection h with h
    subst h
    exact fun x hx => nomatch hx
  | pool, s :: ss, out, h, hs => by
    unfold ofStatements at h
    cases h1 : Building.sentence (W := W) r s ⟨pool, []⟩ with
    | error e =>
      rw [h1] at h
      cases h
    | ok p =>
      rw [h1] at h
      cases h2 : ofStatements (W := W) r p.2.pool ss with
      | error e =>
        simp only [bind, Except.bind, h2] at h
        cases h
      | ok rest =>
        simp only [bind, Except.bind, h2] at h
        injection h with h
        subst h
        intro x hx
        rcases List.mem_cons.1 hx with rfl | hx
        · exact Building.yields_sentence (hs s List.mem_cons_self) _ _ _ h1
        · exact isSaid_of_statements h2 (fun t ht => hs t (List.mem_cons_of_mem _ ht)) x hx

/-- **What is known of every clause and every query of a text.** -/
theorem isSaid_of_read {r : Registry} {text : String} {p : Program W} (h : read r text = .ok p) :
    (∀ c ∈ p.clauses, c.IsSaid r) ∧ ∀ l ∈ p.queries, l.IsAsked := by
  have key : ∀ (xs : List (Sentence W)) (p : Program W), (∀ x ∈ xs, Building.SaidSentence r x) →
      ((∀ c ∈ p.clauses, c.IsSaid r) ∧ ∀ l ∈ p.queries, l.IsAsked) →
      (∀ c ∈ (xs.foldl add p).clauses, c.IsSaid r) ∧ ∀ l ∈ (xs.foldl add p).queries, l.IsAsked := by
    intro xs
    induction xs with
    | nil => exact fun p _ hp => hp
    | cons x xs ih =>
      intro p hxs hp
      refine ih _ (fun y hy => hxs y (List.mem_cons_of_mem _ hy)) ?_
      have hx := hxs x List.mem_cons_self
      cases x with
      | clause c =>
        refine ⟨fun d hd => ?_, hp.2⟩
        rcases List.mem_append.1 hd with hd | hd
        · exact hp.1 d hd
        · rw [List.mem_singleton.1 hd]
          exact hx
      | query l =>
        refine ⟨hp.1, fun m hm => ?_⟩
        rcases List.mem_append.1 hm with hm | hm
        · exact hp.2 m hm
        · rw [List.mem_singleton.1 hm]
          exact hx
  unfold read at h
  split at h
  · cases h
  · rename_i ss hss
    cases ho : ofStatements (W := W) r .empty ss with
    | error e =>
      rw [ho] at h
      cases h
    | ok out =>
      rw [ho] at h
      injection h with h
      subst h
      have hsaid := isSaid_of_statements ho (Grammar.isSpelled_of_statements _ _ hss)
      exact key out empty hsaid ⟨(fun c hc => nomatch hc), fun l hl => nomatch hl⟩

theorem isPlain_of_read {r : Registry} {text : String} {p : Program W} (h : read r text = .ok p) :
    (∀ c ∈ p.clauses, c.isPlain = true) ∧ ∀ l ∈ p.queries, l.isPlain = true :=
  ⟨fun c hc => ((isSaid_of_read h).1 c hc).isPlain, fun l hl => ((isSaid_of_read h).2 l hl).said.spelled.plain⟩

end Program
end Credence
