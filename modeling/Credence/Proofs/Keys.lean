import Credence.Grammar.Lexeme
import Credence.Proofs.Instance
import Credence.Proofs.Weight
/-!
# What literals and clauses are known by

Tables and sets know a literal by its id and a clause by its key, which are texts.  For the names and constants of the
clause language these texts say all there is to say: two literals without variables share an id exactly when weight,
name and arguments print alike, and two clauses of such literals share a key exactly when their literals share ids
(`key_eq_iff`).
-/
namespace Credence

/-! ## Names and constants of the language -/

/-- A number, a word or a wrapped text: no blank, and none of the marks of a clause. -/
def Constant.isPlain (c : Constant) : Bool :=
  !c.printed.toList.isEmpty && c.printed.toList.all (fun x => Constant.isWordChar x || x == '.') &&
    c.printed.toList.head? != some '_'

/-- A small letter, then letters, digits and underscores. -/
def Predicate.isName (s : String) : Bool :=
  match s.toList with
  | []      => false
  | c :: cs => c.isLower && cs.all Grammar.isNameChar

/-- A name of the language, with or without the negation mark. -/
def Predicate.isPlain (p : Predicate) : Bool := isName p.base

def Term.isPlain : Term → Bool
  | .const c => c.isPlain
  | .var _   => true

namespace Literal

variable {W : Type}

def isPlain (l : Literal W) : Bool := l.predicate.isPlain && l.isWellFormed && l.terms.all Term.isPlain

theorem isPlain_congr {l m : Literal W} (hp : l.predicate = m.predicate) (ht : l.terms = m.terms) : l.isPlain = m.isPlain := by
  simp only [isPlain, isWellFormed, hp, ht]

theorem isPlain.predicate {l : Literal W} (h : l.isPlain = true) : l.predicate.isPlain = true := by
  simp only [isPlain, Bool.and_eq_true] at h
  exact h.1.1

theorem isPlain.wellFormed {l : Literal W} (h : l.isPlain = true) : l.isWellFormed = true := by
  simp only [isPlain, Bool.and_eq_true] at h
  exact h.1.2

theorem isPlain.terms {l : Literal W} (h : l.isPlain = true) : ∀ t ∈ l.terms, t.isPlain = true := by
  simp only [isPlain, Bool.and_eq_true] at h
  exact List.all_eq_true.1 h.2

end Literal

/-- The marks that a clause is written with. -/
def IsMark (c : Char) : Prop := c = ',' ∨ c = '(' ∨ c = ')' ∨ c = ':'

theorem not_isMark_of_isWordChar {c : Char} (h : Constant.isWordChar c = true ∨ c = '.') : ¬ IsMark c := by
  rintro (rfl | rfl | rfl | rfl) <;> exact absurd h (by decide)

theorem Constant.isPlain.not_isMark {c : Constant} (h : c.isPlain = true) : ∀ x ∈ c.printed.toList, ¬ IsMark x := by
  intro x hx
  simp only [Constant.isPlain, Bool.and_eq_true] at h
  have := List.all_eq_true.1 h.1.2 x hx
  simp only [Bool.or_eq_true, beq_iff_eq] at this
  exact not_isMark_of_isWordChar this

theorem Constant.isPlain.ne_empty {c : Constant} (h : c.isPlain = true) : c.printed.toList ≠ [] := by
  simp only [Constant.isPlain, Bool.and_eq_true] at h
  intro e
  rw [e] at h
  simp at h

theorem Predicate.isName.not_isMark {s : String} (h : isName s = true) : ∀ x ∈ s.toList, ¬ IsMark x ∧ x ≠ '~' := by
  intro x hx
  unfold isName at h
  split at h
  · cases h
  · rename_i c cs hs
    simp only [Bool.and_eq_true] at h
    rw [hs] at hx
    rcases List.mem_cons.1 hx with rfl | hx
    · refine ⟨?_, ?_⟩
      · rintro (rfl | rfl | rfl | rfl) <;> exact absurd h.1 (by decide)
      · rintro rfl
        exact absurd h.1 (by decide)
    · have := List.all_eq_true.1 h.2 x hx
      refine ⟨?_, ?_⟩
      · rintro (rfl | rfl | rfl | rfl) <;> exact absurd this (by decide)
      · rintro rfl
        exact absurd this (by decide)

theorem Predicate.isName.not_negated {s : String} (h : isName s = true) : Text.startsWith negationMark s = false := by
  by_contra hc
  obtain ⟨t, rfl⟩ := Text.startsWith_iff.1 (by simpa using hc)
  exact (isName.not_isMark h '~' (by simp [negationMark])).2 rfl

theorem Predicate.base_of_not_isNegated {p : Predicate} (h : p.isNegated = false) : p.base = p.name := by
  rw [base, Text.after?_eq_none h]
  rfl

theorem Predicate.name_of_isNegated {p : Predicate} (h : p.isNegated = true) : p.name = negationMark ++ p.base := by
  obtain ⟨t, ht⟩ := Text.startsWith_iff.1 h
  rw [base, ht, Text.after?_append]
  rfl

theorem Predicate.isPlain.not_isMark {p : Predicate} (h : p.isPlain = true) : ∀ x ∈ p.name.toList, ¬ IsMark x := by
  intro x hx
  cases hn : p.isNegated with
  | false =>
    rw [isPlain, base_of_not_isNegated hn] at h
    exact (isName.not_isMark h x hx).1
  | true =>
    rw [name_of_isNegated hn, String.toList_append, List.mem_append] at hx
    rcases hx with hx | hx
    · have hx' : x = '~' := by simpa [negationMark] using hx
      subst hx'
      rintro (h | h | h | h) <;> exact absurd h (by decide)
    · exact (isName.not_isMark h x hx).1

/-! ## Texts of arguments -/

/-- A text that can stand as an argument: not empty, and without marks. -/
def IsArgument (a : String) : Prop := a.toList ≠ [] ∧ ∀ x ∈ a.toList, ¬ IsMark x

theorem IsArgument.not_mem {a : String} (h : IsArgument a) {c : Char} (hc : IsMark c) : c ∉ a.toList := fun hm => h.2 c hm hc

theorem intercalate_ne_empty {as : List String} (h : ∀ a ∈ as, IsArgument a) (hne : as ≠ []) :
    String.intercalate "," as ≠ "" := by
  intro e
  have e' := congrArg String.toList e
  match as with
  | [] => exact hne rfl
  | [a] => exact (h a List.mem_cons_self).1 (by simpa using e')
  | a :: b :: as => simp [String.toList_append] at e'

/-- Arguments with commas between them are known from the whole. -/
theorem intercalate_arguments_inj {as bs : List String} (ha : ∀ a ∈ as, IsArgument a) (hb : ∀ b ∈ bs, IsArgument b)
    (h : String.intercalate "," as = String.intercalate "," bs) : as = bs := by
  have hcomma : IsMark ',' := by simp [IsMark]
  by_cases ea : as = []
  · by_cases eb : bs = []
    · rw [ea, eb]
    · rw [ea, String.intercalate_nil] at h
      exact absurd h.symm (intercalate_ne_empty hb eb)
  · by_cases eb : bs = []
    · rw [eb, String.intercalate_nil] at h
      exact absurd h (intercalate_ne_empty ha ea)
    · exact Text.intercalate_inj (fun a m => (ha a m).not_mem hcomma) (fun b m => (hb b m).not_mem hcomma) ea eb h

/-- A weight, a name and arguments as they stand in a key, up to the closing parenthesis. -/
def openForm (weight name : String) (args : List String) : List Char :=
  weight.toList ++ ':' :: ':' :: (name.toList ++ '(' :: (String.intercalate "," args).toList)

/-- **The parts are known from the whole.** -/
theorem openForm_inj {w w' n n' : String} {as bs : List String} (hw : ':' ∉ w.toList) (hw' : ':' ∉ w'.toList)
    (hn : '(' ∉ n.toList) (hn' : '(' ∉ n'.toList) (ha : ∀ a ∈ as, IsArgument a) (hb : ∀ b ∈ bs, IsArgument b)
    (h : openForm w n as = openForm w' n' bs) : w = w' ∧ n = n' ∧ as = bs := by
  obtain ⟨h1, h2⟩ := Text.split_at_mark hw hw' h
  injection h2 with _ h2
  obtain ⟨h3, h4⟩ := Text.split_at_mark hn hn' h2
  exact ⟨String.toList_injective h1, String.toList_injective h3,
    intercalate_arguments_inj ha hb (String.toList_injective h4)⟩

theorem close_not_mem_openForm {w n : String} {as : List String} (hw : ')' ∉ w.toList) (hn : ')' ∉ n.toList)
    (ha : ∀ a ∈ as, IsArgument a) : ')' ∉ openForm w n as := by
  have hclose : IsMark ')' := by simp [IsMark]
  intro hc
  simp only [openForm, List.mem_append, List.mem_cons] at hc
  rcases hc with hc | hc | hc | hc | hc | hc
  · exact hw hc
  · exact absurd hc (by decide)
  · exact absurd hc (by decide)
  · exact hn hc
  · exact absurd hc (by decide)
  · rcases Text.mem_intercalate hc with ⟨a, m, hc⟩ | hc
    · exact (ha a m).not_mem hclose hc
    · exact absurd hc (by decide)

/-! ## Ids -/

namespace Literal

variable {W : Type}

theorem not_isMark_tag {t : Term} (h : t.isPlain = true) : ∀ x ∈ (idTerm t).toList, ¬ IsMark x := by
  intro x hx
  cases t with
  | const c => exact Constant.isPlain.not_isMark h x hx
  | var v =>
    simp only [idTerm] at hx
    split at hx
    · have hx' : x = '_' := by simpa using hx
      subst hx'
      rintro (h | h | h | h) <;> exact absurd h (by decide)
    · rw [String.toList_append, List.mem_append] at hx
      rcases hx with hx | hx
      · have hx' : x = '?' := by simpa using hx
        subst hx'
        rintro (h | h | h | h) <;> exact absurd h (by decide)
      · have hd := Text.isDigit_of_mem_toString hx
        rintro (rfl | rfl | rfl | rfl) <;> exact absurd hd (by decide)

/-- A name before its arguments is known from the whole. -/
theorem applied_inj {m n : String} {as bs : List String} (hm : '(' ∉ m.toList) (hn : '(' ∉ n.toList)
    (ha : ∀ a ∈ as, ',' ∉ a.toList) (hb : ∀ b ∈ bs, ',' ∉ b.toList) (h : applied "," m as = applied "," n bs) :
    m = n ∧ as = bs := by
  unfold applied at h
  have h' := congrArg String.toList h
  cases as with
  | nil =>
    cases bs with
    | nil => exact ⟨by simpa using h, rfl⟩
    | cons b bs =>
      simp only [List.isEmpty_nil, if_true, List.isEmpty_cons, Bool.false_eq_true, if_false, String.toList_append,
        List.append_assoc] at h'
      exact absurd h'.symm (Text.ne_of_mark hm)
  | cons a as =>
    cases bs with
    | nil =>
      simp only [List.isEmpty_nil, if_true, List.isEmpty_cons, Bool.false_eq_true, if_false, String.toList_append,
        List.append_assoc] at h'
      exact absurd h' (Text.ne_of_mark hn)
    | cons b bs =>
      simp only [List.isEmpty_cons, Bool.false_eq_true, if_false, String.toList_append, List.append_assoc] at h'
      obtain ⟨h1, h2⟩ := Text.split_at_mark hm hn h'
      have h3 := String.toList_injective (List.append_cancel_right h2)
      exact ⟨String.toList_injective h1, Text.intercalate_inj ha hb (by simp) (by simp) h3⟩

theorem name_no_mark {l : Literal W} (h : l.isPlain = true) {c : Char} (hc : IsMark c) : c ∉ l.name.toList :=
  fun hm => Predicate.isPlain.not_isMark (isPlain.predicate h) c hm hc

theorem args_no_mark {l : Literal W} (h : l.isPlain = true) {c : Char} (hc : IsMark c) :
    ∀ a ∈ l.terms.map idTerm, c ∉ a.toList := by
  intro a ha hm
  obtain ⟨t, ht, rfl⟩ := List.mem_map.1 ha
  exact not_isMark_tag (isPlain.terms h t ht) c hm hc

theorem applied_no_mark {l : Literal W} (h : l.isPlain = true) :
    ':' ∉ (applied "," l.name (l.terms.map idTerm)).toList := by
  have hcolon : IsMark ':' := by simp [IsMark]
  intro hc
  unfold applied at hc
  split at hc
  · exact name_no_mark h hcolon hc
  · simp only [String.toList_append, List.mem_append] at hc
    rcases hc with ((hc | hc) | hc) | hc
    · exact name_no_mark h hcolon hc
    · exact absurd hc (by decide)
    · rcases Text.mem_intercalate hc with ⟨a, ha, hc⟩ | hc
      · exact args_no_mark h hcolon a ha hc
      · exact absurd hc (by decide)
    · exact absurd hc (by decide)

variable [Weight W]

/-- What a literal without variables is known by. -/
def form (l : Literal W) : String × String × List String := (Weight.text l.weight, l.name, l.terms.map idTerm)

theorem toList_id (l : Literal W) : l.id.toList =
    ((Weight.text l.weight).toList ++ [':']) ++ ':' :: (applied "," l.name (l.terms.map idTerm)).toList := by
  simp [id, String.toList_append]

/-- **Two literals share an id exactly when weight, name and arguments print alike.** -/
theorem id_eq_iff {l m : Literal W} (hl : l.isPlain = true) (hm : m.isPlain = true) : l.id = m.id ↔ l.form = m.form := by
  constructor
  · intro h
    have h' := congrArg String.toList h
    rw [toList_id, toList_id] at h'
    obtain ⟨h1, h2⟩ := Text.split_at_last_mark (applied_no_mark hl) (applied_no_mark hm) h'
    have hparen : IsMark '(' := by simp [IsMark]
    have hcomma : IsMark ',' := by simp [IsMark]
    obtain ⟨h3, h4⟩ := applied_inj (name_no_mark hl hparen) (name_no_mark hm hparen) (args_no_mark hl hcomma)
      (args_no_mark hm hcomma) (String.toList_injective h2)
    have h5 := String.toList_injective (List.append_cancel_right h1)
    simp only [form, h5, h3, h4]
  · intro h
    simp only [form, Prod.mk.injEq] at h
    obtain ⟨h1, h2, h3⟩ := h
    simp only [id, h1, h2, h3]

theorem map_id_of_map_form {ls ms : List (Literal W)} (h : ls.map form = ms.map form) : ls.map id = ms.map id := by
  have key : (id : Literal W → String) = (fun f => f.1 ++ "::" ++ applied "," f.2.1 f.2.2) ∘ form := rfl
  rw [key, ← List.map_map, h, List.map_map]

theorem isNegated_of_id_eq {l m : Literal W} (hl : l.isPlain = true) (hm : m.isPlain = true) (h : l.id = m.id) :
    l.isNegated = m.isNegated := by
  have hf := (id_eq_iff hl hm).1 h
  simp only [form, Prod.mk.injEq] at hf
  have hname : l.predicate.name = m.predicate.name := hf.2.1
  rw [isNegated, isNegated, Predicate.isNegated, Predicate.isNegated, hname]

omit [Weight W] in
/-- The first character behind the weight says whether a literal is a negation. -/
theorem isNegated_iff_head (l : Literal W) :
    l.isNegated = true ↔ (applied "," l.name (l.terms.map idTerm)).toList.head? = some '~' := by
  have hname : l.isNegated = true ↔ l.name.toList.head? = some '~' := by
    rw [isNegated, Predicate.isNegated, Text.startsWith_iff]
    constructor
    · rintro ⟨t, e⟩
      rw [name, e]
      simp [Predicate.negationMark]
    · intro h
      obtain ⟨cs, e⟩ := List.head?_eq_some_iff.1 h
      refine ⟨String.ofList cs, String.toList_injective ?_⟩
      rw [show l.predicate.name.toList = '~' :: cs from e]
      simp [Predicate.negationMark]
  rw [hname, applied]
  split
  · rfl
  · cases hs : l.name.toList with
    | nil => simp [hs]
    | cons c cs => simp [hs]

/-- Whatever its names and constants, a literal shows its weight in front of its id. -/
theorem text_of_id [LawfulWeight W] {l m : Literal W} (h : l.id = m.id) : Weight.text l.weight = Weight.text m.weight ∧
    applied "," l.name (l.terms.map idTerm) = applied "," m.name (m.terms.map idTerm) := by
  have h' := congrArg String.toList h
  rw [toList_id, toList_id, List.append_assoc, List.append_assoc] at h'
  have hmark : ∀ k : Literal W, ':' ∉ (Weight.text k.weight).toList := fun k hk =>
    (LawfulWeight.text_plain k.weight _ hk).2.2.2 rfl
  obtain ⟨h1, h2⟩ := Text.split_at_mark (hmark l) (hmark m) h'
  exact ⟨String.toList_injective h1, String.toList_injective (List.cons.inj h2).2⟩

theorem isNegated_of_id [LawfulWeight W] {l m : Literal W} (h : l.id = m.id) : l.isNegated = m.isNegated := by
  rw [Bool.eq_iff_iff, isNegated_iff_head, isNegated_iff_head, (text_of_id h).2]

/-- Where nothing but certainty has its text, an id shows whether its literals are certain. -/
theorem isCertain_of_id [LawfulWeight W] (hone : ∀ w : W, Weight.text w = Weight.text (1 : W) → w = 1) {l m : Literal W}
    (h : l.id = m.id) : l.isCertain = m.isCertain := by
  have htext := (text_of_id h).1
  rw [Bool.eq_iff_iff]
  constructor
  · intro hl
    rw [isCertain, LawfulWeight.isCertain_iff] at hl ⊢
    exact hone _ (htext.symm.trans (congrArg Weight.text hl))
  · intro hm
    rw [isCertain, LawfulWeight.isCertain_iff] at hm ⊢
    exact hone _ (htext.trans (congrArg Weight.text hm))

/-- The printed form tells the terms of literals without variables apart, the numbers of wildcards aside. -/
theorem const_of_idTerm_eq {c : Constant} {t : Term} (hc : c.isPlain = true) (h : idTerm (.const c) = idTerm t) :
    t = .const c := by
  cases t with
  | const d =>
    simp only [idTerm] at h
    cases c; cases d
    simp only at h
    rw [h]
  | var v =>
    exfalso
    simp only [Constant.isPlain, Bool.and_eq_true, bne_iff_ne, ne_eq] at hc
    simp only [idTerm] at h
    split at h
    · exact hc.2 (by rw [h]; rfl)
    · have := List.all_eq_true.1 hc.1.2 '?' (by rw [h]; simp)
      exact absurd this (by decide)

theorem terms_eq_of_map_idTerm : ∀ {cs : List Constant} {ts : List Term}, (∀ c ∈ cs, c.isPlain = true) →
    (cs.map Term.const).map idTerm = ts.map idTerm → ts = cs.map .const
  | [], [], _, _ => rfl
  | c :: cs, t :: ts, hc, h => by
    simp only [List.map_cons, List.cons.injEq] at h
    rw [const_of_idTerm_eq (hc c List.mem_cons_self) h.1,
      terms_eq_of_map_idTerm (fun c' hc' => hc c' (List.mem_cons_of_mem _ hc')) h.2]
    rfl

/-- A plain literal without variables is known by its form. -/
theorem eq_literal_of_form [LawfulWeight W] {a : Atom} {w : W} {l : Literal W} (ha : (a.literal w).isPlain = true)
    (hl : l.isPlain = true) (hw : Weight.isProper w = true) (hlw : Weight.isProper l.weight = true)
    (h : (a.literal w).form = l.form) : l = a.literal w := by
  simp only [form, Prod.mk.injEq] at h
  obtain ⟨h1, h2, h3⟩ := h
  have hargs : ∀ c ∈ a.args, c.isPlain = true := by
    intro c hc
    have := isPlain.terms ha (.const c) (by simpa [Atom.literal] using hc)
    exact this
  have hterms : l.terms = a.args.map .const := terms_eq_of_map_idTerm hargs h3
  have hweight : w = l.weight := LawfulWeight.text_inj w l.weight hw hlw h1
  have hpred : l.predicate = a.predicate := by
    have e1 := isWellFormed_iff.1 (isPlain.wellFormed ha)
    have e2 := isWellFormed_iff.1 (isPlain.wellFormed hl)
    have hlen : (a.literal w).terms.length = l.terms.length := by simp [Atom.literal, hterms]
    have harity : l.predicate.arity = a.predicate.arity := by rw [← e2, ← hlen, e1]; rfl
    cases hp : l.predicate; cases hq : a.predicate
    simp only [name, Atom.literal, hp, hq] at h2 harity
    rw [h2, harity]
  cases l
  simp only at hterms hweight hpred
  rw [hterms, ← hweight, hpred]
  rfl

/-! ## What stands in a key -/

/-- A weight, a name and arguments as they stand in a key. -/
def written (f : String × String × List String) : String :=
  f.1 ++ "::" ++ f.2.1 ++ "(" ++ String.intercalate "," f.2.2 ++ ")"

theorem toList_written (f : String × String × List String) : (written f).toList = openForm f.1 f.2.1 f.2.2 ++ [')'] := by
  simp [written, openForm, String.toList_append]

/-- Nothing in the parts looks like what stands between them. -/
structure Readable (f : String × String × List String) : Prop where
  weight : ':' ∉ f.1.toList ∧ ')' ∉ f.1.toList
  name   : '(' ∉ f.2.1.toList ∧ ')' ∉ f.2.1.toList
  args   : ∀ a ∈ f.2.2, IsArgument a

/-- **A written form ends at its first closing parenthesis**, and is known from what is written. -/
theorem written_inj {f g : String × String × List String} (hf : Readable f) (hg : Readable g) {xs ys : List Char}
    (h : (written f).toList ++ xs = (written g).toList ++ ys) : f = g ∧ xs = ys := by
  simp only [toList_written, List.append_assoc, List.singleton_append] at h
  obtain ⟨h1, h2⟩ := Text.split_at_mark (close_not_mem_openForm hf.weight.2 hf.name.2 hf.args)
    (close_not_mem_openForm hg.weight.2 hg.name.2 hg.args) h
  obtain ⟨hw, hn, ha⟩ := openForm_inj hf.weight.1 hg.weight.1 hf.name.1 hg.name.1 hf.args hg.args h1
  exact ⟨Prod.ext hw (Prod.ext hn ha), h2⟩

theorem eq_of_written {f g : String × String × List String} (hf : Readable f) (hg : Readable g)
    (h : written f = written g) : f = g :=
  (written_inj hf hg (congrArg (fun s : String => s.toList ++ []) h)).1

/-- Written forms one behind the other are known from the whole. -/
theorem intercalate_written_inj : ∀ {fs gs : List (String × String × List String)}, fs.length = gs.length →
    (∀ f ∈ fs, Readable f) → (∀ g ∈ gs, Readable g) →
    String.intercalate "," (fs.map written) = String.intercalate "," (gs.map written) → fs = gs
  | [], [], _, _, _, _ => rfl
  | [f], [g], _, hf, hg, h => by
    have h' : written f = written g := by simpa using h
    rw [eq_of_written (hf f List.mem_cons_self) (hg g List.mem_cons_self) h']
  | f :: f' :: fs, g :: g' :: gs, hlen, hf, hg, h => by
    have h' := congrArg String.toList h
    simp only [List.map_cons, String.intercalate_cons_cons, String.toList_append, List.append_assoc] at h'
    obtain ⟨h1, h2⟩ := written_inj (hf f List.mem_cons_self) (hg g List.mem_cons_self) h'
    have h3 := String.toList_injective (List.append_cancel_left h2)
    rw [h1, intercalate_written_inj (by simpa using hlen) (fun k hk => hf k (List.mem_cons_of_mem _ hk))
      (fun k hk => hg k (List.mem_cons_of_mem _ hk)) h3]

end Literal

namespace Clause

open Literal

variable {W : Type} [Weight W]

/-- The literals of a clause hold no variables but wildcards. -/
def isSemiGrounded (c : Clause W) : Bool := c.head.isSemiGrounded && c.body.all Literal.isSemiGrounded

def isPlain (c : Clause W) : Bool := c.head.isPlain && c.body.all Literal.isPlain

omit [Weight W] in
/-- The terms in a key are arguments, and those of variables have a question mark. -/
theorem canonicalTerms_arguments : ∀ (seen : List Var) {ts : List Term}, (∀ t ∈ ts, t.isPlain = true) →
    (∀ a ∈ (canonicalTerms seen ts).1, IsArgument a) ∧
      ((∀ t ∈ ts, (t.isConst || t.isWildcard) = true) ↔ ∀ a ∈ (canonicalTerms seen ts).1, '?' ∉ a.toList)
  | seen, [], _ => by simp [canonicalTerms]
  | seen, .const c :: ts, h => by
    obtain ⟨hc, hts⟩ := List.forall_mem_cons.1 h
    obtain ⟨ih1, ih2⟩ := canonicalTerms_arguments seen hts
    have hquery : '?' ∉ c.printed.toList := by
      intro hq
      simp only [Term.isPlain, Constant.isPlain, Bool.and_eq_true] at hc
      exact absurd (List.all_eq_true.1 hc.1.2 _ hq) (by decide)
    have hconst : ((Term.const c).isConst || (Term.const c).isWildcard) = true := rfl
    simp only [canonicalTerms, List.forall_mem_cons, hconst, hquery, true_and, not_false_eq_true]
    exact ⟨⟨⟨Constant.isPlain.ne_empty hc, Constant.isPlain.not_isMark hc⟩, ih1⟩, ih2⟩
  | seen, .var v :: ts, h => by
    obtain ⟨-, hts⟩ := List.forall_mem_cons.1 h
    have hmark : ∀ {x : Char}, x = '_' ∨ x = '?' ∨ x.isDigit = true → ¬ IsMark x := by
      rintro x hx (rfl | rfl | rfl | rfl) <;> exact absurd hx (by decide)
    unfold canonicalTerms
    cases hv : v.wildcard with
    | true =>
      obtain ⟨ih1, ih2⟩ := canonicalTerms_arguments seen hts
      have hwild : ((Term.var v).isConst || (Term.var v).isWildcard) = true := hv
      have hquery : '?' ∉ "_".toList := by decide
      simp only [if_true, List.forall_mem_cons, hwild, hquery, true_and, not_false_eq_true]
      exact ⟨⟨⟨by decide, fun x hx => hmark (.inl (by simpa using hx))⟩, ih1⟩, ih2⟩
    | false =>
      obtain ⟨ih1, -⟩ := canonicalTerms_arguments (if seen.idxOf v < seen.length then seen else seen ++ [v]) hts
      have hnamed : ((Term.var v).isConst || (Term.var v).isWildcard) = false := hv
      have hlist : ("?" ++ toString (seen.idxOf v)).toList = '?' :: (toString (seen.idxOf v)).toList := by
        simp [String.toList_append]
      simp only [Bool.false_eq_true, if_false, List.forall_mem_cons, hnamed, false_and, hlist, List.mem_cons_self,
        not_true_eq_false]
      refine ⟨⟨⟨by rw [hlist]; simp, fun x hx => ?_⟩, ih1⟩, trivial⟩
      rw [hlist] at hx
      rcases List.mem_cons.1 hx with rfl | hx
      · exact hmark (.inr (.inl rfl))
      · exact hmark (.inr (.inr (Text.isDigit_of_mem_toString hx)))

/-- What a key has of literals, one behind the other, with variables by their place in `seen`. -/
def forms : List Var → List (Literal W) → List (String × String × List String)
  | _,    []      => []
  | seen, l :: ls =>
    let (args, seen) := canonicalTerms seen l.terms
    (Weight.text l.weight, l.name, args) :: forms seen ls

theorem canonicalLiterals_eq : ∀ (seen : List Var) (ls : List (Literal W)),
    canonicalLiterals seen ls = (forms seen ls).map written
  | _,    []      => rfl
  | seen, l :: ls => by
    rw [canonicalLiterals, forms, List.map_cons, ← canonicalLiterals_eq]
    rfl

theorem forms_length : ∀ (seen : List Var) (ls : List (Literal W)), (forms seen ls).length = ls.length
  | _, [] => rfl
  | _, _ :: ls => congrArg (· + 1) (forms_length _ ls)

theorem forms_readable [LawfulWeight W] : ∀ (seen : List Var) {ls : List (Literal W)}, (∀ l ∈ ls, l.isPlain = true) →
    ∀ f ∈ forms seen ls, Readable f
  | _,    [],      _, _, hf => by cases hf
  | seen, l :: ls, h, f, hf => by
    obtain ⟨hl, hls⟩ := List.forall_mem_cons.1 h
    have htext := LawfulWeight.text_plain l.weight
    rcases List.mem_cons.1 hf with rfl | hf
    · exact ⟨⟨fun hc => (htext _ hc).2.2.2 rfl, fun hc => (htext _ hc).2.2.1 rfl⟩,
        ⟨name_no_mark hl (by simp [IsMark]), name_no_mark hl (by simp [IsMark])⟩,
        (canonicalTerms_arguments seen (isPlain.terms hl)).1⟩
    · exact forms_readable _ hls f hf

/-- A key begins with the head of the clause. -/
theorem toList_fingerprint (c : Clause W) : ∃ rest, c.fingerprint.toList =
    (written (Weight.text c.head.weight, c.head.name, (canonicalTerms [] c.head.terms).1)).toList ++ rest := by
  unfold fingerprint canonicalLiteral
  simp only
  split
  · exact ⟨[], (List.append_nil _).symm⟩
  · refine ⟨":-".toList ++ (String.intercalate "," (canonicalLiterals (canonicalTerms [] c.head.terms).2 c.body)).toList, ?_⟩
    simp [written, String.toList_append]

/-- **Keys tell clauses apart by what they have of their literals.** -/
theorem key_eq_iff_forms [LawfulWeight W] {c d : Clause W} (hc : c.isPlain = true) (hd : d.isPlain = true) :
    c.key = d.key ↔ forms [] (c.head :: c.body) = forms [] (d.head :: d.body) := by
  have hplain : ∀ {c : Clause W}, c.isPlain = true → ∀ l ∈ c.head :: c.body, l.isPlain = true := by
    intro c hc
    simp only [isPlain, Bool.and_eq_true, List.all_eq_true] at hc
    exact List.forall_mem_cons.2 hc
  have hfinger : ∀ c : Clause W, c.fingerprint =
      if c.body.isEmpty then written (Weight.text c.head.weight, c.head.name, (canonicalTerms [] c.head.terms).1)
      else written (Weight.text c.head.weight, c.head.name, (canonicalTerms [] c.head.terms).1) ++ ":-" ++
        String.intercalate "," ((forms (canonicalTerms [] c.head.terms).2 c.body).map written) := by
    intro c
    rw [← canonicalLiterals_eq]
    rfl
  constructor
  · intro h
    obtain ⟨hlen, hf⟩ := Prod.mk.inj h
    have he : c.body.isEmpty = d.body.isEmpty := by
      rw [Bool.eq_iff_iff, List.isEmpty_iff_length_eq_zero, List.isEmpty_iff_length_eq_zero, hlen]
    obtain ⟨hc1, hc2⟩ := List.forall_mem_cons.1 (forms_readable [] (hplain hc))
    obtain ⟨hd1, hd2⟩ := List.forall_mem_cons.1 (forms_readable [] (hplain hd))
    rw [hfinger, hfinger, he] at hf
    refine List.cons_eq_cons.2 ?_
    split at hf
    · rename_i hemp
      have hd0 : d.body = [] := List.isEmpty_iff.1 hemp
      have hc0 : c.body = [] := List.isEmpty_iff.1 (he ▸ hemp)
      exact ⟨eq_of_written hc1 hd1 hf, by rw [hc0, hd0]; rfl⟩
    · have h' := congrArg String.toList hf
      simp only [String.toList_append, List.append_assoc] at h'
      obtain ⟨h1, h2⟩ := written_inj hc1 hd1 h'
      refine ⟨h1, intercalate_written_inj ?_ hc2 hd2 (String.toList_injective (List.append_cancel_left h2))⟩
      rw [forms_length, forms_length, hlen]
  · intro h
    have hlen : c.body.length = d.body.length := by
      have := congrArg List.length h
      rw [forms_length, forms_length] at this
      simpa using this
    have he : c.body.isEmpty = d.body.isEmpty := by
      rw [Bool.eq_iff_iff, List.isEmpty_iff_length_eq_zero, List.isEmpty_iff_length_eq_zero, hlen]
    obtain ⟨h1, h2⟩ := List.cons_eq_cons.1 h
    rw [key, key, hlen, hfinger, hfinger, he, h1, h2]

/-! ## Keys of clauses without variables -/

omit [Weight W] in
theorem canonicalTerms_semiGrounded (seen : List Var) : ∀ {ts : List Term},
    (∀ t ∈ ts, (t.isConst || t.isWildcard) = true) → canonicalTerms seen ts = (ts.map idTerm, seen)
  | [], _ => rfl
  | .const c :: ts, h => by
    rw [canonicalTerms, canonicalTerms_semiGrounded seen (fun t ht => h t (List.mem_cons_of_mem _ ht))]
    rfl
  | .var v :: ts, h => by
    have hv : v.wildcard = true := by simpa [Term.isConst, Term.isWildcard] using h (.var v) List.mem_cons_self
    rw [canonicalTerms, canonicalTerms_semiGrounded seen (fun t ht => h t (List.mem_cons_of_mem _ ht)), hv]
    simp [idTerm, hv]

theorem forms_semiGrounded (seen : List Var) : ∀ {ls : List (Literal W)}, (∀ l ∈ ls, l.isSemiGrounded = true) →
    forms seen ls = ls.map form
  | [], _ => rfl
  | l :: ls, h => by
    obtain ⟨hl, hls⟩ := List.forall_mem_cons.1 h
    rw [forms, canonicalTerms_semiGrounded seen (List.all_eq_true.1 hl), List.map_cons, ← forms_semiGrounded seen hls]
    rfl

theorem key_fact {l : Literal W} (h : l.isSemiGrounded = true) : (fact l).key = (0, written l.form) := by
  rw [key, fingerprint, canonicalLiteral, fact, canonicalTerms_semiGrounded [] (List.all_eq_true.1 h)]
  rfl

/-- **Two clauses without variables share a key exactly when their literals print alike.** -/
theorem key_eq_iff [LawfulWeight W] {c d : Clause W} (hc : c.isSemiGrounded = true) (hd : d.isSemiGrounded = true)
    (hpc : c.isPlain = true) (hpd : d.isPlain = true) :
    c.key = d.key ↔ c.head.form = d.head.form ∧ c.body.map form = d.body.map form := by
  have hclosed : ∀ {c : Clause W}, c.isSemiGrounded = true → ∀ l ∈ c.head :: c.body, l.isSemiGrounded = true := by
    intro c hc
    simp only [isSemiGrounded, Bool.and_eq_true, List.all_eq_true] at hc
    exact List.forall_mem_cons.2 hc
  rw [key_eq_iff_forms hpc hpd, forms_semiGrounded [] (hclosed hc), forms_semiGrounded [] (hclosed hd), List.map_cons,
    List.map_cons, List.cons.injEq]

/-- **A key tells whether the head has variables.** -/
theorem isSemiGrounded_of_key [LawfulWeight W] {c d : Clause W} (hc : c.head.isPlain = true) (hd : d.head.isPlain = true)
    (h : c.key = d.key) : c.head.isSemiGrounded = d.head.isSemiGrounded := by
  obtain ⟨harg, hclosed⟩ := canonicalTerms_arguments [] (isPlain.terms hc)
  obtain ⟨harg', hclosed'⟩ := canonicalTerms_arguments [] (isPlain.terms hd)
  obtain ⟨rest, e⟩ := c.toList_fingerprint
  obtain ⟨rest', e'⟩ := d.toList_fingerprint
  have hf : c.fingerprint.toList = d.fingerprint.toList := congrArg String.toList (congrArg Prod.snd h)
  rw [e, e'] at hf
  have hread := forms_readable [] (List.forall_mem_singleton.2 hc) _ List.mem_cons_self
  have hread' := forms_readable [] (List.forall_mem_singleton.2 hd) _ List.mem_cons_self
  have hargs := congrArg (fun f : String × String × List String => f.2.2) (written_inj hread hread' hf).1
  dsimp only at hargs
  rw [Bool.eq_iff_iff, Literal.isSemiGrounded, Literal.isSemiGrounded, List.all_eq_true, List.all_eq_true, hclosed, hclosed',
    hargs]

end Clause
end Credence
