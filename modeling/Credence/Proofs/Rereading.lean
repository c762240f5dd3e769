import Credence.Proofs.Doubles
import Credence.Proofs.Wording
/-!
# What is printed says the same

A clause that has been read prints as a statement, and the statement says the clause again in variables of its own: a
printed variable stands for one new variable throughout, and a wildcard for a new one each time (`Building.terms_scope`).
The copy passes the check that the rule has passed, and stands in order because the rule does.  So it is the same clause
under another numbering, and a query comes back as a variant of itself (`Sentence.read_printed`).
-/
namespace Credence

variable {W : Type}

/-! ## What one statement says -/

theorem Grammar.isSpelled_of_single {s : String} {st : Statement} (h : single? s = some st) : st.IsSpelled := by
  unfold single? at h
  split at h
  · cases h
  · rename_i hst
    split at h
    · exact Option.some.inj h ▸ isSpelled_of_statement hst
    · cases h

section Said

variable [Weight W] {r : Registry} {text : String}

theorem Sentence.said_of_read {x : Sentence W} (h : Sentence.read r text = .ok x) : Building.SaidSentence r x := by
  unfold Sentence.read at h
  split at h
  · cases h
  · rename_i st hst
    cases hb : Building.sentence (W := W) r st ⟨.empty, []⟩ with
    | error e =>
      rw [hb] at h
      cases h
    | ok p =>
      rw [hb] at h
      injection h with h
      exact h ▸ Building.yields_sentence (Grammar.isSpelled_of_single hst) _ _ _ hb

theorem Clause.isSaid_of_read {c : Clause W} (h : Clause.read r text = .ok c) : c.IsSaid r := by
  unfold Clause.read at h
  cases hx : Sentence.read (W := W) r text with
  | error e =>
    rw [hx] at h
    cases h
  | ok x =>
    rw [hx] at h
    have hsaid := Sentence.said_of_read hx
    cases x with
    | clause d =>
      injection h with h
      exact h ▸ hsaid
    | query l => cases h

theorem Literal.isAsked_of_readQuery {l : Literal W} (h : Literal.readQuery r text = .ok l) : l.IsAsked := by
  unfold Literal.readQuery at h
  cases hx : Sentence.read (W := W) r (queryText text) with
  | error e =>
    rw [hx] at h
    cases h
  | ok x =>
    rw [hx] at h
    have hsaid := Sentence.said_of_read hx
    cases x with
    | clause d => cases h
    | query m =>
      injection h with h
      exact h ▸ hsaid

end Said

theorem Literal.Copy.isGrounded {f : Var → Var} {l l' : Literal W} (h : Literal.Copy f l l') (hl : l.isGrounded = true) :
    l'.isGrounded = true := by
  refine List.all_eq_true.2 (fun u hu => ?_)
  obtain ⟨t, ht, htu⟩ := forall₂_exists_left h.terms hu
  have hconst := List.all_eq_true.1 hl t ht
  cases t with
  | const c => rw [show u = .const c from htu]; rfl
  | var v => cases hconst

theorem Literal.Copy.isSemiGrounded {f : Var → Var} {l l' : Literal W} (h : Literal.Copy f l l')
    (hl : l.isSemiGrounded = true) : l'.isSemiGrounded = true := by
  refine List.all_eq_true.2 (fun u hu => ?_)
  obtain ⟨t, ht, htu⟩ := forall₂_exists_left h.terms hu
  have hclosed := List.all_eq_true.1 hl t ht
  cases t with
  | const c => rw [show u = .const c from htu]; rfl
  | var v =>
    have hw : v.wildcard = true := hclosed
    simp only [Relabeled, hw, if_true] at htu
    obtain ⟨w, hw', rfl⟩ := htu
    exact hw'

/-! ## Printed variables -/

/-- Where the printed names of variables stand for what a renaming has made of them. -/
def Renaming.scope (r : Renaming) : Scope := ⟨r.pool, r.table.map (fun b => ((Term.var b.1).text, b.2))⟩

theorem Term.var_of_text {v w : Var} (hv : v.wildcard = false) (h : (Term.var v).text = (Term.var w).text) : v = w := by
  have hlist := congrArg String.toList h
  rw [Term.toList_text hv] at hlist
  cases hw : w.wildcard with
  | true =>
    rw [Term.text, if_pos hw] at hlist
    exact absurd (List.cons.inj hlist).1 (by decide)
  | false =>
    rw [Term.toList_text hw] at hlist
    have hid := Text.toString_nat_inj (String.toList_injective (List.cons.inj hlist).2)
    cases v
    cases w
    cases hid
    cases hv
    cases hw
    rfl

namespace Building

/-- A printed variable stands for what the renaming makes of it. -/
theorem named_scope {v : Var} (hv : v.wildcard = false) (r : Renaming) :
    named (Term.var v).text r.scope = .ok (.var (r.rename v).1, (r.rename v).2.scope) := by
  have hlookup : r.scope.names.lookup (Term.var v).text = (r.table.lookup v).map id :=
    lookup_map (f := fun w => (Term.var w).text) id (fun b _ e => Term.var_of_text hv e)
  rw [Option.map_id_apply] at hlookup
  unfold named Renaming.rename
  rw [hlookup]
  cases r.table.lookup v with
  | some w => rfl
  | none => rfl

/-- **Printed terms are read as a copy of the terms.** -/
theorem terms_scope : ∀ (ts : List Term) (r : Renaming),
    terms (ts.map Term.lexeme) r.scope = .ok ((r.shuffled ts).1, (r.shuffled ts).2.scope)
  | [],             _ => rfl
  | .const c :: ts, r => by
    have hterm : term (Term.const c).lexeme r.scope = .ok (.const c, r.scope) := by
      unfold Term.lexeme
      dsimp only
      split <;> rfl
    exact bind_eq_ok_iff.2 ⟨_, _, hterm, bind_eq_ok_iff.2 ⟨_, _, terms_scope ts r, rfl⟩⟩
  | .var v :: ts,   r => by
    cases hw : v.wildcard with
    | true =>
      have hterm : term (Term.var v).lexeme r.scope =
          .ok (.var r.pool.wildcard.1, Renaming.scope { r with pool := r.pool.wildcard.2 }) := by
        rw [Term.lexeme, if_pos hw]
        rfl
      rw [Renaming.shuffled, if_pos hw]
      exact bind_eq_ok_iff.2 ⟨_, _, hterm, bind_eq_ok_iff.2 ⟨_, _, terms_scope ts _, rfl⟩⟩
    | false =>
      have hterm : term (Term.var v).lexeme r.scope = .ok (.var (r.rename v).1, (r.rename v).2.scope) := by
        rw [Term.lexeme, if_neg (by simp [hw])]
        exact named_scope hw r
      rw [Renaming.shuffled, if_neg (by simp [hw])]
      exact bind_eq_ok_iff.2 ⟨_, _, hterm, bind_eq_ok_iff.2 ⟨_, _, terms_scope ts _, rfl⟩⟩

/-! ## Printed literals -/

variable [Weight W]

/-- Plain terms are operands that nothing has to be computed for. -/
theorem operands_terms : ∀ {ts : List Grammar.Lexeme} {us : List Term} {s s' : Scope}, terms ts s = .ok (us, s') →
    operands (W := W) (ts.map .term) s = .ok ((us, []), s')
  | [],      _, _, _, h => by
    cases h
    rfl
  | t :: ts, _, s, _, h => by
    obtain ⟨u, s₁, ht, h⟩ := bind_eq_ok_iff.1 h
    obtain ⟨us, s₂, hts, h⟩ := bind_eq_ok_iff.1 h
    cases h
    have hterm : operand (W := W) (.term t) s = .ok ((u, []), s₁) := by
      rw [operand]
      exact bind_eq_ok_iff.2 ⟨u, s₁, ht, rfl⟩
    rw [List.map_cons, operands]
    exact bind_eq_ok_iff.2 ⟨_, _, hterm, bind_eq_ok_iff.2 ⟨_, _, operands_terms hts, rfl⟩⟩

/-- The name of a literal has passed its check, and does so again. -/
theorem atom_copy {l : Literal W} (hl : l.IsSpelled) {ts : List Term} (ht : ts.length = l.terms.length) :
    Literal.atom (predicateName l.isNegated l.predicate.base) ts =
      (.ok ⟨1, l.predicate, ts⟩ : Except Error (Literal W)) := by
  have hname : predicateName l.isNegated l.predicate.base = l.predicate.name := by
    cases hneg : l.isNegated with
    | true => exact (Predicate.name_of_isNegated hneg).symm
    | false => exact Predicate.base_of_not_isNegated hneg
  have harity : ts.length = l.predicate.arity :=
    ht.trans (Literal.isWellFormed_iff.1 (Literal.isPlain.wellFormed hl.plain))
  unfold Literal.atom
  rw [hname, harity, hl.checked]
  rfl

theorem length_shuffled {low : Nat} {r : Renaming} (hr : r.Fresh low) (ts : List Term) :
    (r.shuffled ts).1.length = ts.length :=
  ((Renaming.shuffled_copied ts hr).copy _ (.refl _)).length_eq.symm

theorem item_scope {low : Nat} {r : Renaming} (hr : r.Fresh low) {l : Literal W} (hl : l.IsSaid) :
    item l.item r.scope = .ok ([{ l with terms := (r.shuffled l.terms).1 }], (r.shuffled l.terms).2.scope) := by
  have hargs : operands (W := W) (l.terms.map (fun t => .term t.lexeme)) r.scope =
      .ok (((r.shuffled l.terms).1, []), (r.shuffled l.terms).2.scope) := by
    have := operands_terms (W := W) (terms_scope l.terms r)
    rwa [List.map_map] at this
  have hatom := atom_copy hl.spelled (length_shuffled hr l.terms)
  rw [← hl.weight] at hatom
  exact bind_eq_ok_iff.2 ⟨_, _, hargs, bind_eq_ok_iff.2 ⟨_, _, lift_eq_ok_iff.2 ⟨hatom, rfl⟩, rfl⟩⟩

/-- **A printed body is read as a copy of the body**, literal by literal. -/
theorem items_scope {low : Nat} : ∀ {ls : List (Literal W)}, (∀ l ∈ ls, l.IsSaid) → ∀ {r : Renaming}, r.Fresh low →
    ∃ ls' r', items (ls.map Literal.item) r.scope = .ok (ls', r'.scope) ∧ Clause.Copied low r ls (ls', r')
  | [],      _,   r, hr => ⟨[], r, rfl, .nil hr⟩
  | l :: ls, hls, r, hr => by
    have hcopy := Renaming.shuffled_copied l.terms hr
    -- the rest starts from what the first literal has decided
    obtain ⟨ls', r', hitems, hcopied⟩ := items_scope (fun m hm => hls m (List.mem_cons_of_mem _ hm)) hcopy.fresh
    refine ⟨_, r', ?_, .cons hcopy hcopied⟩
    exact bind_eq_ok_iff.2 ⟨_, _, item_scope hr (hls l List.mem_cons_self), bind_eq_ok_iff.2 ⟨_, _, hitems, rfl⟩⟩

/-! ## Printed statements -/

section Weighted

variable [DecimalWeight W]

/-- The weight that is printed is read back, and where none is printed the weight is one. -/
theorem weight_copy {l : Literal W} (hw : Weight.isProper l.weight = true) (text : String) (e : Grammar.Ending) :
    ∃ w : Option W, weight (l.statement text e) = .ok w ∧ w.getD 1 = l.weight ∧ (l.weight = 1 → w = none) := by
  cases hc : l.isCertain with
  | true =>
    refine ⟨none, ?_, ((LawfulWeight.isCertain_iff l.weight).1 hc).symm, fun _ => rfl⟩
    simp only [weight, Literal.statement, Literal.weightText?, hc, if_true]
  | false =>
    refine ⟨some l.weight, ?_, rfl, fun h1 => ?_⟩
    · simp only [weight, Literal.statement, Literal.weightText?, hc, Bool.false_eq_true, if_false,
        DecimalWeight.read_text l.weight hw, hw, if_true]
    · rw [Literal.isCertain, (LawfulWeight.isCertain_iff l.weight).2 h1] at hc
      cases hc

/-- What the ending of a statement makes of its weight and its head. -/
def conclude (r : Registry) (s : Grammar.Statement) (w : Option W) (head : Literal W) : Building (Sentence W) :=
  match s.ending with
  | .query     => query s w.isSome head
  | .fact      =>
    if ({ head with weight := w.getD 1 } : Literal W).isGrounded then
      return .clause (.fact { head with weight := w.getD 1 })
    else throw (.openFact s.text)
  | .rule body => do
    let body ← items body
    rule r ⟨{ head with weight := w.getD 1 }, body⟩

omit [DecimalWeight W] in
/-- **A printed literal is read as a copy of the literal**, and the ending decides what it is the head of. -/
theorem sentence_scope {r : Registry} {l : Literal W} (hl : l.IsSpelled) {text : String} {e : Grammar.Ending} {w : Option W}
    (hw : weight (l.statement text e) = .ok w) {p : Sentence W × Scope}
    (hp : conclude r (l.statement text e) w { (l.shuffle .empty).1 with weight := 1 }
      (Renaming.shuffled ⟨.empty, []⟩ l.terms).2.scope = .ok p) :
    sentence r (l.statement text e) ⟨.empty, []⟩ = .ok p := by
  have hatom := atom_copy hl (length_shuffled (Renaming.fresh_start .empty) l.terms)
  exact bind_eq_ok_iff.2 ⟨w, _, lift_eq_ok_iff.2 ⟨hw, rfl⟩, bind_eq_ok_iff.2 ⟨_, _, terms_scope l.terms ⟨.empty, []⟩,
    bind_eq_ok_iff.2 ⟨_, _, lift_eq_ok_iff.2 ⟨hatom, rfl⟩, hp⟩⟩⟩

/-- **A clause that has been read is read again as a copy of itself.** -/
theorem sentence_clause {r : Registry} {c : Clause W} (hc : c.IsSaid r) (text : String) :
    ∃ c' s f low high, sentence r (c.head.statement text c.ending) ⟨.empty, []⟩ = .ok (.clause c', s) ∧
      Relabeling c.VarsIn f low high ∧ Clause.Copy f c c' := by
  have hhead := Renaming.shuffled_copied c.head.terms (Renaming.fresh_start .empty)
  obtain ⟨w, hweight, hw, -⟩ := weight_copy hc.isProper text c.ending
  cases hbody : c.body with
  | nil =>
    have hcopied := Clause.Copied.nil (W := W) hhead.fresh
    rw [← hbody] at hcopied
    obtain ⟨f, hf, hcopy⟩ : ∃ f, _ ∧ Clause.Copy f c ⟨(c.head.shuffle .empty).1, []⟩ :=
      hbody ▸ Clause.copy_of_copied hhead hcopied
    refine ⟨_, (Renaming.shuffled ⟨.empty, []⟩ c.head.terms).2.scope, f, _, _, sentence_scope hc.head hweight ?_, hf, hcopy⟩
    have hgrounded := hcopy.head.isGrounded (hc.fact hbody)
    have hending : c.ending = .fact := by rw [Clause.ending, hbody]; rfl
    simp only [conclude, Literal.statement, hending, hw]
    exact if_pos hgrounded ▸ rfl
  | cons l ls =>
    have hne : c.body ≠ [] := by rw [hbody]; exact List.cons_ne_nil l ls
    obtain ⟨hcheck, horder⟩ := hc.rule hne
    obtain ⟨ls', r', hitems, hcopied⟩ := items_scope hc.body hhead.fresh
    obtain ⟨f, hf, hcopy⟩ : ∃ f, _ ∧ Clause.Copy f c ⟨(c.head.shuffle .empty).1, ls'⟩ :=
      Clause.copy_of_copied hhead hcopied
    refine ⟨_, r'.scope, f, _, _, sentence_scope hc.head hweight ?_, hf, hcopy⟩
    have hending : c.ending = .rule (c.body.map Literal.item) := by rw [Clause.ending, hbody]; rfl
    -- a body that stood in order is left as it is, so that nothing moves away from its place
    have hrule : rule r ⟨(c.head.shuffle .empty).1, ls'⟩ = .ok (.clause ⟨(c.head.shuffle .empty).1, ls'⟩) := by
      unfold rule
      rw [Clause.checkRule_copy hcopy hf hcheck, Clause.reorder_copy hcopy hf horder]
      rfl
    simp only [conclude, Literal.statement, hending, hw]
    exact bind_eq_ok_iff.2 ⟨ls', _, hitems, lift_eq_ok_iff.2 ⟨hrule, rfl⟩⟩

/-- **So is a query.** -/
theorem sentence_query {r : Registry} {q : Literal W} (hq : q.IsAsked) (text : String) :
    ∃ q' s f low high, sentence r (q.statement text .query) ⟨.empty, []⟩ = .ok (.query q', s) ∧
      Relabeling (VarsOf q.terms) f low high ∧ Literal.Copy f q q' := by
  obtain ⟨f, hf, hcopy⟩ := q.shuffle_spec .empty
  obtain ⟨w, hweight, -, hnone⟩ := weight_copy hq.said.isProper text .query
  obtain rfl := hnone hq.said.weight
  have hcertain : ({ (q.shuffle .empty).1 with weight := 1 } : Literal W) = (q.shuffle .empty).1 :=
    congrArg (fun w => (⟨w, q.predicate, (q.shuffle .empty).1.terms⟩ : Literal W)) hq.said.weight.symm
  have hclosed : ((q.shuffle .empty).1.isNegated && !(q.shuffle .empty).1.isSemiGrounded) = false := by
    cases hneg : q.isNegated with
    | false => exact Bool.and_eq_false_imp.2 (fun h => nomatch hneg.symm.trans h)
    | true => rw [hcopy.isSemiGrounded (hq.closed hneg), Bool.not_true, Bool.and_false]
  have hquery : query (q.statement text .query) false (q.shuffle .empty).1 = .ok (.query (q.shuffle .empty).1) := by
    rw [query, if_neg Bool.false_ne_true, hclosed, if_neg Bool.false_ne_true]
  refine ⟨_, (Renaming.shuffled ⟨.empty, []⟩ q.terms).2.scope, f, _, _, sentence_scope hq.said.spelled hweight ?_, hf, hcopy⟩
  rw [hcertain]
  exact lift_eq_ok_iff.2 ⟨hquery, rfl⟩

end Weighted

end Building

/-! ## Where printed queries begin and end -/

theorem Text.trim_eq_self {s : String} (hhead : ∀ c, s.toList.head? = some c → isBlank c = false)
    (hlast : ∀ c, s.toList.getLast? = some c → isBlank c = false) : trim s = s := by
  have hstart : ∀ {cs : List Char}, (∀ c, cs.head? = some c → isBlank c = false) → trimStart cs = cs := by
    intro cs h
    cases cs with
    | nil => rfl
    | cons c cs => rw [trimStart, List.dropWhile_cons_of_neg (by simp [h c rfl])]
  rw [trim, hstart hhead, trimEnd, hstart (by simpa using hlast), List.reverse_reverse, String.ofList_toList]

theorem isBlank_of_isNameChar {c : Char} (h : Grammar.isNameChar c = true) : Text.isBlank c = false := by
  have hcode : 48 ≤ c.toNat ∧ c.toNat < 128 := by
    rcases Grammar.isNameChar_iff.1 h with h | h | h | rfl
    · have := Grammar.isUpper_iff.1 h
      omega
    · have := Grammar.isLower_iff.1 h
      omega
    · have := Grammar.isDigit_iff.1 h
      omega
    · decide
  simp only [Text.isBlank, Text.blankRuns, List.any_cons, List.any_nil, Bool.or_false, Bool.or_eq_false_iff,
    Bool.and_eq_false_iff, decide_eq_false_iff_not]
  omega

variable [Weight W] [DecimalWeight W]

namespace Literal

/-- **A printed query is given its question mark**: it begins with a name and ends with one or with a parenthesis. -/
theorem IsSaid.queryText {l : Literal W} (hl : l.IsSaid) : queryText l.text = l.text ++ "?" := by
  have hplain := Literal.isPlain.predicate hl.spelled.plain
  have hname : ∀ x ∈ l.name.toList, Grammar.isNameChar x = true ∨ x = '~' := by
    intro x hx
    cases hneg : l.predicate.isNegated with
    | true =>
      rw [name, Grammar.toList_name_of_isNegated hneg] at hx
      exact (List.mem_cons.1 hx).symm.imp_left (Grammar.isNameChar_of_isName hplain x)
    | false =>
      rw [name, ← Predicate.base_of_not_isNegated hneg] at hx
      exact .inl (Grammar.isNameChar_of_isName hplain x hx)
  have hmark : ∀ x, Grammar.isNameChar x = true ∨ x = '~' → Text.isBlank x = false ∧ x ≠ '?' := by
    rintro x (hx | rfl)
    · exact ⟨isBlank_of_isNameChar hx, by rintro rfl; exact absurd hx (by decide)⟩
    · decide
  obtain ⟨y, ys, hys, -⟩ := Grammar.name_cons hplain
  have hhead : ∀ c, l.text.toList.head? = some c → Text.isBlank c = false := by
    intro c hc
    rw [Grammar.toList_text_of_isSaid hl, name, hys] at hc
    obtain rfl : y = c := Option.some.inj hc
    exact (hmark y (hname y (by rw [name, hys]; exact List.mem_cons_self))).1
  have hlast : ∀ c, l.text.toList.getLast? = some c → Text.isBlank c = false ∧ c ≠ '?' := by
    intro c hc
    rw [Grammar.toList_text_of_isSaid hl] at hc
    by_cases hterms : l.terms = []
    · rw [hterms, Grammar.argumentText_nil, List.append_nil] at hc
      exact hmark c (hname c (List.mem_of_getLast? hc))
    · rw [Grammar.argumentText, if_neg (by simpa using hterms), ← List.cons_append, ← List.append_assoc,
        List.getLast?_concat] at hc
      obtain rfl : ')' = c := Option.some.inj hc
      decide
  have htrim : Text.trim l.text = l.text := Text.trim_eq_self hhead (fun c hc => (hlast c hc).1)
  unfold Literal.queryText
  rw [htrim]
  exact if_neg (fun h => (hlast '?' h).2 rfl)

end Literal

/-! ## Clauses and queries -/

omit [DecimalWeight W] in
theorem Sentence.read_of_single {r : Registry} {text : String} {st : Grammar.Statement} {x : Sentence W} {s : Scope}
    (hst : Grammar.single? text = some st) (hx : Building.sentence r st ⟨.empty, []⟩ = .ok (x, s)) :
    read r text = .ok x := by
  unfold read
  rw [hst]
  dsimp only
  rw [hx]
  rfl

/-- **What is printed is read as the same again.**  A clause that has been read, printed with a full stop behind it, reads
as a clause that is equal to it, and a query that has been read prints as a query of its variant. -/
theorem Sentence.read_printed (r : Registry) :
    (∀ (text : String) (c : Clause W), Clause.read r text = .ok c →
      ∃ c' : Clause W, Clause.read r (c.text ++ ".") = .ok c' ∧ c'.alike c = true) ∧
    ∀ (text : String) (q : Literal W), Literal.readQuery r text = .ok q →
      ∃ q' : Literal W, Literal.readQuery r q.text = .ok q' ∧ q'.variant = q.variant := by
  constructor
  · intro text c hc
    have hsaid := Clause.isSaid_of_read hc
    obtain ⟨stated, hsingle⟩ := Grammar.single?_clause hsaid
    obtain ⟨c', s, f, low, high, hsentence, hf, hcopy⟩ := Building.sentence_clause hsaid stated
    refine ⟨c', ?_, beq_iff_eq.2 (hcopy.key hf.named hf.injective (fun _ hv => hv))⟩
    unfold Clause.read
    rw [read_of_single hsingle hsentence]
    rfl
  · intro text q hq
    have hasked := Literal.isAsked_of_readQuery hq
    obtain ⟨stated, hsingle⟩ := Grammar.single?_query hasked.said
    obtain ⟨q', s, f, low, high, hsentence, hf, hcopy⟩ := Building.sentence_query hasked stated
    refine ⟨q', ?_, hcopy.variant hf.named hf.injective (fun _ hv => hv)⟩
    unfold Literal.readQuery
    rw [hasked.said.queryText, read_of_single hsingle hsentence]
    rfl

/-! ## A rule in two forms -/

namespace StreetDoor

/-- A weighted rule with a negation, a text in quotes, a comparison with a call in it and a wildcard. -/
def ruleText : String := "0.1 :: open(X) :- ~shut(X, \"to the street\"), Y > fn_add(X, 2), door(X, Y, _)."

def rulePrinted : String :=
  "0.1::open(V0) :- door(V0, V1, _), ~shut(V0, b64_dG8gdGhlIHN0cmVldA), fn_add(V2, V0, 2), fn_gt(V3, V1, V2), fn_is_true(V3)"

def queryText : String := " door( hall, X, _ ,X)? "

end StreetDoor

open StreetDoor in
/-- Weighed in doubles, the rule and the query are read, and what is printed of them is read again. -/
theorem Sentence.read_printed_streetDoor :
    (∃ c c' : Clause Double, Clause.read .empty ruleText = .ok c ∧ c.text = rulePrinted ∧
      Clause.read .empty (c.text ++ ".") = .ok c' ∧ c'.alike c = true) ∧
    ∃ q q' : Literal Double, Literal.readQuery .empty queryText = .ok q ∧ q.text = "door(hall, V0, _, V0)" ∧
      Literal.readQuery .empty q.text = .ok q' ∧ q'.variant = q.variant := by
  have hrule : (Clause.read (W := Double) .empty ruleText).toOption.map Clause.text = some rulePrinted := by
    decide +kernel
  have hquery : (Literal.readQuery (W := Double) .empty queryText).toOption.map Literal.text =
      some "door(hall, V0, _, V0)" := by decide +kernel
  obtain ⟨c, hc, hprinted⟩ := Option.map_eq_some_iff.1 hrule
  obtain ⟨q, hq, hprinted'⟩ := Option.map_eq_some_iff.1 hquery
  have hc : Clause.read .empty ruleText = .ok c := by
    revert hc
    cases Clause.read (W := Double) .empty ruleText <;> simp [Except.toOption]
  have hq : Literal.readQuery .empty queryText = .ok q := by
    revert hq
    cases Literal.readQuery (W := Double) .empty queryText <;> simp [Except.toOption]
  obtain ⟨c', hc', halike⟩ := (read_printed .empty).1 ruleText c hc
  obtain ⟨q', hq', hvariant⟩ := (read_printed .empty).2 queryText q hq
  exact ⟨⟨c, c', hc, hprinted, hc', halike⟩, q, q', hq, hprinted', hq', hvariant⟩

end Credence
