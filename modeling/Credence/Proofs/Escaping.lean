import Credence.Program
import Credence.Proofs.Wrapping
/-!
# What quoted texts stand for

A quoted text is written with a backslash in front of what could not stand between quotes.  Its escapes are undone one
kind after the other over the whole text, and so a letter that follows a backslash of the text itself is taken for an
escape: behind a backslash, `n`, `t` and `r` come back as the characters that they escape (`misread`).  Every other text
is read back as it is (`Grammar.text_of_quoted`).
-/
namespace Credence

namespace Text

/-! ## Exchanging one piece of text -/

theorem splitFrom_ne_nil (sep : List Char) : ∀ (fuel : Nat) (held cs : List Char), splitFrom sep fuel held cs ≠ []
  | 0, _, _ => by simp [splitFrom]
  | _ + 1, _, [] => by simp [splitFrom]
  | fuel + 1, held, c :: cs => by
    rw [splitFrom]
    split
    · simp
    · exact splitFrom_ne_nil sep fuel (c :: held) cs

/-- The pieces of a text with others between them. -/
def joined (new : List Char) (pieces : List (List Char)) : List Char := List.intercalate new pieces

theorem joined_cons {new p : List Char} {ps : List (List Char)} (h : ps ≠ []) :
    joined new (p :: ps) = p ++ (new ++ joined new ps) := by
  cases ps with
  | nil => exact absurd rfl h
  | cons q qs => simp [joined, List.intercalate_cons_cons]

/-- What is held stands in front. -/
theorem joined_splitFrom (sep new : List Char) : ∀ (fuel : Nat) (held cs : List Char),
    joined new (splitFrom sep fuel held cs) = held.reverse ++ joined new (splitFrom sep fuel [] cs)
  | 0, _, _ => by simp [splitFrom, joined]
  | _ + 1, _, [] => by simp [splitFrom, joined]
  | fuel + 1, held, c :: cs => by
    rw [splitFrom, splitFrom]
    cases sep.isPrefixOf? (c :: cs) with
    | some rest =>
      dsimp only
      rw [joined_cons (splitFrom_ne_nil sep fuel [] rest), joined_cons (splitFrom_ne_nil sep fuel [] rest)]
      rfl
    | none =>
      dsimp only
      rw [joined_splitFrom sep new fuel (c :: held), joined_splitFrom sep new fuel [c]]
      simp

/-- Every occurrence of `old` exchanged for `new`, from the left. -/
def exchange (old new cs : List Char) : List Char := joined new (splitFrom old (cs.length + 1) [] cs)

theorem toList_replace (old new s : String) : (replace old new s).toList = exchange old.toList new.toList s.toList := by
  rw [replace, splitOn, String.toList_intercalate, List.map_map, exchange, joined, String.length_toList]
  have hid : String.toList ∘ String.ofList = fun cs : List Char => cs := funext (fun cs => String.toList_ofList)
  rw [hid, List.map_id']

theorem isPrefixOf?_append : ∀ old rest : List Char, old.isPrefixOf? (old ++ rest) = some rest
  | [], rest => by simp [List.isPrefixOf?]
  | c :: old, rest => by simp [List.isPrefixOf?, isPrefixOf?_append old rest]

theorem isPrefixOf?_eq_some : ∀ {old cs rest : List Char}, old.isPrefixOf? cs = some rest → cs = old ++ rest
  | [], _, _, h => by simpa [List.isPrefixOf?] using h
  | a :: old, [], _, h => by simp [List.isPrefixOf?] at h
  | a :: old, c :: cs, rest, h => by
    rw [List.isPrefixOf?] at h
    split at h
    · rename_i hac
      rw [beq_iff_eq.1 hac, List.cons_append, ← isPrefixOf?_eq_some h]
    · cases h

/-- Fuel for every character is enough. -/
theorem joined_splitFrom_fuel {old : List Char} (new : List Char) (hold : old ≠ []) : ∀ (fuel : Nat) {cs : List Char},
    cs.length < fuel → joined new (splitFrom old fuel [] cs) = exchange old new cs
  | 0, _, h => absurd h (Nat.not_lt_zero _)
  | fuel + 1, [], _ => rfl
  | fuel + 1, c :: cs, h => by
    have hfuel : cs.length < fuel := by simpa using h
    rw [exchange, List.length_cons, splitFrom, splitFrom]
    cases hp : old.isPrefixOf? (c :: cs) with
    | some rest =>
      have hlen : rest.length ≤ cs.length := by
        have := congrArg List.length (isPrefixOf?_eq_some hp)
        have := List.length_pos_of_ne_nil hold
        simp only [List.length_cons, List.length_append] at *
        omega
      dsimp only
      rw [joined_cons (splitFrom_ne_nil _ _ _ _), joined_cons (splitFrom_ne_nil _ _ _ _),
        joined_splitFrom_fuel new hold fuel (by omega), joined_splitFrom_fuel new hold (cs.length + 1) (by omega)]
    | none =>
      dsimp only
      rw [joined_splitFrom, joined_splitFrom old new (cs.length + 1), joined_splitFrom_fuel new hold fuel hfuel]
      rfl
termination_by fuel => fuel

theorem exchange_found {old new rest : List Char} {c : Char} {cs : List Char} (hold : old ≠ [])
    (h : c :: cs = old ++ rest) : exchange old new (c :: cs) = new ++ exchange old new rest := by
  have hp : old.isPrefixOf? (c :: cs) = some rest := by
    rw [h]
    exact isPrefixOf?_append old rest
  have hlen : rest.length < cs.length + 1 := by
    have := congrArg List.length h
    have := List.length_pos_of_ne_nil hold
    simp only [List.length_cons, List.length_append] at *
    omega
  rw [exchange, List.length_cons, splitFrom, hp]
  dsimp only
  rw [joined_cons (splitFrom_ne_nil _ _ _ _), joined_splitFrom_fuel new hold _ hlen]
  rfl

theorem exchange_skip {old new : List Char} {c : Char} {cs : List Char} (hold : old ≠ [])
    (h : ∀ rest, c :: cs ≠ old ++ rest) : exchange old new (c :: cs) = c :: exchange old new cs := by
  have hp : old.isPrefixOf? (c :: cs) = none :=
    Option.eq_none_iff_forall_ne_some.2 (fun rest e => h rest (isPrefixOf?_eq_some e))
  rw [exchange, List.length_cons, splitFrom, hp]
  dsimp only
  rw [joined_splitFrom, joined_splitFrom_fuel new hold _ (Nat.lt_succ_self _)]
  rfl

/-! ## Runs of backslashes -/

/-- A text by its runs of backslashes: each has a length and the character that ends it, and the last may end the text. -/
def render : List (Nat × Char) → Nat → List Char
  | [],           tail => List.replicate tail '\\'
  | (k, c) :: bs, tail => List.replicate k '\\' ++ c :: render bs tail

/-- Each run ends where the backslashes do. -/
def Runs (bs : List (Nat × Char)) : Prop := ∀ b ∈ bs, b.2 ≠ '\\'

theorem runs_nil : Runs [] := fun _ h => absurd h List.not_mem_nil

theorem exists_render : ∀ cs : List Char, ∃ bs tail, Runs bs ∧ cs = render bs tail
  | [] => ⟨[], 0, runs_nil, rfl⟩
  | c :: cs => by
    obtain ⟨bs, tail, hbs, rfl⟩ := exists_render cs
    by_cases hc : c = '\\'
    · subst hc
      cases bs with
      | nil => exact ⟨[], tail + 1, hbs, rfl⟩
      | cons b bs =>
        obtain ⟨k, d⟩ := b
        obtain ⟨hd, hbs⟩ := List.forall_mem_cons.1 hbs
        exact ⟨(k + 1, d) :: bs, tail, List.forall_mem_cons.2 ⟨hd, hbs⟩, rfl⟩
    · exact ⟨(0, c) :: bs, tail, List.forall_mem_cons.2 ⟨hc, hbs⟩, rfl⟩

/-- What undoing the escape of one character does to a run: it takes away the backslash in front of the letter. -/
def undo (letter char : Char) (b : Nat × Char) : Nat × Char :=
  if b.2 = letter ∧ 0 < b.1 then (b.1 - 1, char) else b

theorem exchange_run {letter char : Char} (hl : letter ≠ '\\') {c : Char} (hc : c ≠ '\\') (rest : List Char) :
    ∀ k : Nat, exchange ['\\', letter] [char] (List.replicate k '\\' ++ c :: rest) =
      List.replicate (undo letter char (k, c)).1 '\\' ++ (undo letter char (k, c)).2 :: exchange ['\\', letter] [char] rest
  | 0 => by
    rw [undo, if_neg (by simp)]
    refine exchange_skip (by simp) (fun r e => hc ?_)
    exact (List.cons.inj e).1
  | 1 => by
    by_cases he : c = letter
    · rw [undo, if_pos ⟨he, Nat.one_pos⟩]
      exact exchange_found (by simp) (by rw [he]; rfl)
    · have hskip : ∀ r, '\\' :: c :: rest ≠ ['\\', letter] ++ r :=
        fun r e => he (List.cons.inj (List.cons.inj e).2).1
      have h0 : exchange ['\\', letter] [char] (c :: rest) =
          List.replicate (undo letter char (0, c)).1 '\\' ++ (undo letter char (0, c)).2 :: exchange ['\\', letter] [char] rest :=
        exchange_run hl hc rest 0
      rw [undo, if_neg (by simp)] at h0
      rw [undo, if_neg (fun h => he h.1)]
      show exchange ['\\', letter] [char] ('\\' :: c :: rest) = '\\' :: c :: _
      rw [exchange_skip (by simp) hskip]
      exact congrArg _ h0
  | k + 2 => by
    have hskip : ∀ r, '\\' :: (List.replicate (k + 1) '\\' ++ c :: rest) ≠ ['\\', letter] ++ r :=
      fun r e => hl (List.cons.inj (List.cons.inj e).2).1.symm
    rw [List.replicate_succ, List.cons_append, exchange_skip (by simp) hskip, exchange_run hl hc rest (k + 1)]
    unfold undo
    by_cases he : c = letter
    · rw [if_pos ⟨he, Nat.succ_pos k⟩, if_pos ⟨he, Nat.succ_pos (k + 1)⟩]
      rfl
    · rw [if_neg (fun h => he h.1), if_neg (fun h => he h.1)]
      rfl

theorem exchange_tail (letter char : Char) (hl : letter ≠ '\\') : ∀ tail : Nat,
    exchange ['\\', letter] [char] (List.replicate tail '\\') = List.replicate tail '\\'
  | 0 => rfl
  | tail + 1 => by
    have hskip : ∀ r, '\\' :: List.replicate tail '\\' ≠ ['\\', letter] ++ r := by
      intro r e
      cases tail with
      | zero => cases (List.cons.inj e).2
      | succ n => exact hl (List.cons.inj (List.cons.inj e).2).1.symm
    rw [List.replicate_succ, exchange_skip (by simp) hskip, exchange_tail letter char hl tail]

/-- **Undoing one kind of escapes acts on each run.** -/
theorem exchange_render {letter char : Char} (hl : letter ≠ '\\') (tail : Nat) : ∀ {bs : List (Nat × Char)}, Runs bs →
    exchange ['\\', letter] [char] (render bs tail) = render (bs.map (undo letter char)) tail
  | [], _ => exchange_tail letter char hl tail
  | (k, c) :: bs, h => by
    obtain ⟨hc, hbs⟩ := List.forall_mem_cons.1 h
    rw [render, exchange_run hl hc, exchange_render hl tail hbs]
    rfl

theorem runs_undo (letter : Char) {char : Char} (hchar : char ≠ '\\') {bs : List (Nat × Char)} (h : Runs bs) :
    Runs (bs.map (undo letter char)) := by
  intro b hb
  obtain ⟨a, ha, rfl⟩ := List.mem_map.1 hb
  unfold undo
  split
  · exact hchar
  · exact h a ha

/-- A replacement that undoes one kind of escapes, on a text that is given by its runs. -/
theorem toList_undo {old new s : String} {letter char : Char} {bs : List (Nat × Char)} {tail : Nat}
    (hold : old.toList = ['\\', letter]) (hnew : new.toList = [char]) (hl : letter ≠ '\\')
    (h : s.toList = render bs tail ∧ Runs bs) (hchar : char ≠ '\\') :
    (replace old new s).toList = render (bs.map (undo letter char)) tail ∧ Runs (bs.map (undo letter char)) := by
  refine ⟨?_, runs_undo letter hchar h.2⟩
  rw [toList_replace, hold, hnew, h.1, exchange_render hl tail h.2]

/-- The last step makes one backslash of two, from the left. -/
def halve (b : Nat × Char) : Nat × Char := ((b.1 + 1) / 2, b.2)

theorem exchange_halve (rest : List Char) (hrest : ∀ r, rest ≠ '\\' :: r) : ∀ k : Nat,
    exchange ['\\', '\\'] ['\\'] (List.replicate k '\\' ++ rest) =
      List.replicate ((k + 1) / 2) '\\' ++ exchange ['\\', '\\'] ['\\'] rest
  | 0 => rfl
  | 1 => by
    refine exchange_skip (by simp) (fun r e => hrest r ?_)
    exact (List.cons.inj e).2
  | k + 2 => by
    have hhalf : (k + 2 + 1) / 2 = (k + 1) / 2 + 1 := by omega
    have hpair : exchange ['\\', '\\'] ['\\'] (List.replicate (k + 2) '\\' ++ rest) =
        ['\\'] ++ exchange ['\\', '\\'] ['\\'] (List.replicate k '\\' ++ rest) := exchange_found (by simp) rfl
    rw [hpair, exchange_halve rest hrest k, hhalf]
    rfl

theorem exchange_render_halve (tail : Nat) : ∀ {bs : List (Nat × Char)}, Runs bs →
    exchange ['\\', '\\'] ['\\'] (render bs tail) = render (bs.map halve) ((tail + 1) / 2)
  | [], _ => by
    have h := exchange_halve [] (fun _ e => nomatch e) tail
    rw [List.append_nil] at h
    exact h.trans (List.append_nil _)
  | (k, c) :: bs, h => by
    obtain ⟨hc, hbs⟩ := List.forall_mem_cons.1 h
    rw [render, exchange_halve (c :: render bs tail) (fun r e => hc (List.cons.inj e).1) k,
      exchange_skip (by simp) (fun r e => hc (List.cons.inj e).1), exchange_render_halve tail hbs]
    rfl

/-! ## Escapes -/

/-- How a character is written between two quotes. -/
def escapeChar (quote c : Char) : List Char :=
  if c = '\\' ∨ c = quote then ['\\', c]
  else if c = '\n' then ['\\', 'n']
  else if c = '\t' then ['\\', 't']
  else if c = '\r' then ['\\', 'r']
  else [c]

/-- A text as it is written between two quotes. -/
def escape (quote : Char) (cs : List Char) : List Char := cs.flatMap (escapeChar quote)

/-- What a letter stands for behind a backslash. -/
def meant (c : Char) : Char :=
  if c = 'n' then '\n' else if c = 't' then '\t' else if c = 'r' then '\r' else c

/-- A text with each letter behind a backslash taken for what it escapes; `behind` says whether a backslash stands in
front. -/
def misread : Bool → List Char → List Char
  | _,      []      => []
  | behind, c :: cs => (if behind then meant c else c) :: misread (c = '\\') cs

/-- A run as it is written between two quotes. -/
def escapeRun (quote : Char) (b : Nat × Char) : Nat × Char :=
  if b.2 = quote then (2 * b.1 + 1, quote)
  else if b.2 = '\n' then (2 * b.1 + 1, 'n')
  else if b.2 = '\t' then (2 * b.1 + 1, 't')
  else if b.2 = '\r' then (2 * b.1 + 1, 'r')
  else (2 * b.1, b.2)

/-- A run as it is read back. -/
def misreadRun (b : Nat × Char) : Nat × Char := (b.1, if 0 < b.1 then meant b.2 else b.2)

theorem escape_replicate (quote : Char) (rest : List Char) : ∀ k : Nat,
    escape quote (List.replicate k '\\' ++ rest) = List.replicate (2 * k) '\\' ++ escape quote rest
  | 0 => rfl
  | k + 1 => by
    have ih := escape_replicate quote rest k
    have hdouble : 2 * (k + 1) = 2 * k + 1 + 1 := by omega
    rw [List.replicate_succ, List.cons_append, hdouble, List.replicate_succ, List.replicate_succ, List.cons_append,
      List.cons_append, ← ih, escape, List.flatMap_cons, escapeChar, if_pos (.inl rfl)]
    rfl

theorem escape_run {quote c : Char} (hc : c ≠ '\\') (k : Nat) (rest : List Char) :
    escape quote (List.replicate k '\\' ++ c :: rest) =
      List.replicate (escapeRun quote (k, c)).1 '\\' ++ (escapeRun quote (k, c)).2 :: escape quote rest := by
  have hone : ∀ d : Char, List.replicate (2 * k + 1) '\\' ++ d :: escape quote rest =
      List.replicate (2 * k) '\\' ++ (['\\', d] ++ escape quote rest) := by
    intro d
    rw [List.replicate_succ', List.append_assoc]
    rfl
  rw [escape_replicate]
  have hcons : escape quote (c :: rest) = escapeChar quote c ++ escape quote rest := List.flatMap_cons
  rw [hcons]
  unfold escapeChar escapeRun
  dsimp only
  by_cases hq : c = quote
  · rw [if_pos (.inr hq), if_pos hq, hone, hq]
  · rw [if_neg (fun h => h.elim hc hq), if_neg hq]
    split
    · rw [hone]
    · split
      · rw [hone]
      · split
        · rw [hone]
        · rfl

theorem escape_render (quote : Char) (tail : Nat) : ∀ {bs : List (Nat × Char)}, Runs bs →
    escape quote (render bs tail) = render (bs.map (escapeRun quote)) (2 * tail)
  | [], _ => by
    have h := escape_replicate quote [] tail
    rw [List.append_nil] at h
    exact h.trans (List.append_nil _)
  | (k, c) :: bs, h => by
    obtain ⟨hc, hbs⟩ := List.forall_mem_cons.1 h
    rw [render, escape_run hc, escape_render quote tail hbs]
    rfl

theorem runs_escape {quote : Char} (hq : quote ≠ '\\') {bs : List (Nat × Char)} (h : Runs bs) :
    Runs (bs.map (escapeRun quote)) := by
  intro b hb
  obtain ⟨a, ha, rfl⟩ := List.mem_map.1 hb
  unfold escapeRun
  split
  · exact hq
  · split
    · exact (by decide : 'n' ≠ '\\')
    · split
      · exact (by decide : 't' ≠ '\\')
      · split
        · exact (by decide : 'r' ≠ '\\')
        · exact h a ha

theorem misread_replicate (rest : List Char) : ∀ (k : Nat) (behind : Bool),
    misread behind (List.replicate k '\\' ++ rest) = List.replicate k '\\' ++ misread (behind || decide (0 < k)) rest
  | 0, behind => by simp
  | k + 1, behind => by
    have hkeep : (if behind then meant '\\' else '\\') = '\\' := by cases behind <;> rfl
    rw [List.replicate_succ, List.cons_append, misread, hkeep, misread_replicate rest k]
    simp

theorem misread_render (tail : Nat) : ∀ {bs : List (Nat × Char)}, Runs bs →
    misread false (render bs tail) = render (bs.map misreadRun) tail
  | [], _ => by
    have h := misread_replicate [] tail false
    rw [List.append_nil] at h
    exact h.trans (List.append_nil _)
  | (k, c) :: bs, h => by
    obtain ⟨hc, hbs⟩ := List.forall_mem_cons.1 h
    have hflag : decide (c = '\\') = false := decide_eq_false hc
    rw [render, misread_replicate, misread, hflag, misread_render tail hbs]
    simp [misreadRun, render]

/-- The escapes of a run, undone one kind after the other. -/
theorem undo_escapeRun {quote : Char} (hq : quote = '"' ∨ quote = '\'') (b : Nat × Char) :
    halve (undo '\'' '\'' (undo '"' '"' (undo 'r' '\r' (undo 't' '\t' (undo 'n' '\n' (escapeRun quote b)))))) =
      misreadRun b := by
  obtain ⟨k, c⟩ := b
  have hodd : (2 * k + 1) / 2 = k := by omega
  by_cases hspecial : c ∈ ['\n', '\t', '\r', 'n', 't', 'r', '"', '\'']
  · -- with backslashes in front the last of them goes with the letter, and half of the rest remains
    have hless : 0 < k → (2 * k - 1 + 1) / 2 = k := by omega
    simp only [List.mem_cons, List.not_mem_nil, or_false] at hspecial
    rcases hq with rfl | rfl <;> rcases hspecial with rfl | rfl | rfl | rfl | rfl | rfl | rfl | rfl <;>
      by_cases hk : 0 < k <;> simp [escapeRun, undo, halve, misreadRun, meant, hk, hodd, hless]
  · simp only [List.mem_cons, List.not_mem_nil, or_false, not_or] at hspecial
    obtain ⟨h1, h2, h3, h4, h5, h6, h7, h8⟩ := hspecial
    rcases hq with rfl | rfl <;>
      simp [escapeRun, undo, halve, misreadRun, meant, h1, h2, h3, h4, h5, h6, h7, h8, hodd]

/-- **What comes of undoing the escapes of a text**: the text, with each letter behind a backslash taken for what it
escapes. -/
theorem unescape_escape {quote : Char} (hq : quote = '"' ∨ quote = '\'') (cs : List Char) :
    (unescape (String.ofList (escape quote cs))).toList = misread false cs := by
  obtain ⟨bs, tail, hbs, rfl⟩ := exists_render cs
  have hquote : quote ≠ '\\' := by rcases hq with rfl | rfl <;> decide
  have h0 : (String.ofList (escape quote (render bs tail))).toList = render (bs.map (escapeRun quote)) (2 * tail) ∧
      Runs (bs.map (escapeRun quote)) :=
    ⟨by rw [String.toList_ofList, escape_render quote tail hbs], runs_escape hquote hbs⟩
  have hn := toList_undo (by simp : "\\n".toList = ['\\', 'n']) (by simp : "\n".toList = ['\n']) (by decide) h0 (by decide)
  have ht := toList_undo (by simp : "\\t".toList = ['\\', 't']) (by simp : "\t".toList = ['\t']) (by decide) hn (by decide)
  have hr := toList_undo (by simp : "\\r".toList = ['\\', 'r']) (by simp : "\r".toList = ['\r']) (by decide) ht (by decide)
  have hd := toList_undo (by simp : "\\\"".toList = ['\\', '"']) (by simp : "\"".toList = ['"']) (by decide) hr (by decide)
  have hs := toList_undo (by simp : "\\'".toList = ['\\', '\'']) (by simp : "'".toList = ['\'']) (by decide) hd (by decide)
  have htail : (2 * tail + 1) / 2 = tail := by omega
  have hpair : "\\\\".toList = ['\\', '\\'] ∧ "\\".toList = ['\\'] := ⟨by simp, by simp⟩
  have hruns : ((((((bs.map (escapeRun quote)).map (undo 'n' '\n')).map (undo 't' '\t')).map (undo 'r' '\r')).map
      (undo '"' '"')).map (undo '\'' '\'')).map halve = bs.map misreadRun := by
    simp only [List.map_map, Function.comp_def, undo_escapeRun hq]
  rw [unescape, toList_replace, hpair.1, hpair.2, hs.1, exchange_render_halve _ hs.2, htail, misread_render tail hbs, hruns]

theorem meant_eq_iff (c : Char) : meant c = c ↔ c ∉ ['n', 't', 'r'] := by
  simp only [List.mem_cons, List.not_mem_nil, or_false, not_or]
  constructor
  · intro h
    refine ⟨?_, ?_, ?_⟩ <;> rintro rfl <;> exact absurd h (by decide)
  · rintro ⟨hn, ht, hr⟩
    rw [meant, if_neg hn, if_neg ht, if_neg hr]

/-- **A text is read back as it is exactly when no backslash stands in front of a letter that escapes something.** -/
theorem misread_eq_iff : ∀ (behind : Bool) (cs : List Char), misread behind cs = cs ↔
    (behind = true → ∀ c ∈ cs.head?, c ∉ ['n', 't', 'r']) ∧ ∀ c ∈ ['n', 't', 'r'], ¬ ['\\', c] <:+: cs
  | _, [] => by simp [misread]
  | behind, c :: cs => by
    rw [misread, List.cons_eq_cons, misread_eq_iff]
    have hfirst : (if behind then meant c else c) = c ↔ (behind = true → c ∉ ['n', 't', 'r']) := by
      cases behind with
      | true => simpa using meant_eq_iff c
      | false => simp
    have hpair : ∀ x : Char, ['\\', x] <:+: c :: cs ↔ (c = '\\' ∧ cs.head? = some x) ∨ ['\\', x] <:+: cs := by
      intro x
      rw [List.infix_cons_iff, List.cons_prefix_cons]
      refine or_congr_left (and_congr eq_comm ?_)
      cases cs with
      | nil => simp
      | cons d ds => simp [List.cons_prefix_cons, eq_comm]
    simp only [hfirst, hpair, not_or, not_and, decide_eq_true_eq, List.head?_cons, Option.mem_some_iff, forall_eq']
    constructor
    · rintro ⟨h1, h2, h3⟩
      exact ⟨h1, fun x hx => ⟨fun hc hd => h2 hc x hd hx, h3 x hx⟩⟩
    · rintro ⟨h1, h2⟩
      exact ⟨h1, fun hc x hd hx => (h2 x hx).1 hc hd, fun x hx => (h2 x hx).2⟩

end Text

/-! ## Quoted terms -/

namespace Grammar

open Text

theorem untilQuote_escape {quote : Char} (hq : quote ≠ '\\') (rest : List Char) : ∀ cs : List Char,
    untilQuote quote (escape quote cs ++ quote :: rest) = some (escape quote cs, rest)
  | [] => by
    show untilQuote quote (quote :: rest) = some ([], rest)
    rw [untilQuote]
    · exact if_pos rfl
    · rintro _ _ e -
      exact hq e
  | c :: cs => by
    have ih := untilQuote_escape hq rest cs
    have hcons : escape quote (c :: cs) = escapeChar quote c ++ escape quote cs := List.flatMap_cons
    have hshield : ∀ d, untilQuote quote (['\\', d] ++ escape quote cs ++ quote :: rest) =
        some (['\\', d] ++ escape quote cs, rest) := by
      intro d
      show untilQuote quote ('\\' :: d :: (escape quote cs ++ quote :: rest)) = _
      rw [untilQuote, ih]
      rfl
    rw [hcons]
    unfold escapeChar
    split
    · exact hshield _
    · rename_i hc
      split
      · exact hshield _
      · split
        · exact hshield _
        · split
          · exact hshield _
          · show untilQuote quote (c :: (escape quote cs ++ quote :: rest)) = _
            rw [untilQuote, if_neg (fun e => hc (.inr e)), ih]
            · rfl
            · rintro _ _ e -
              exact hc (.inl e)

/-- **What a quoted text stands for.**  Any text, written between quotes of either kind with its escapes, is read to its
end as one term, and the term is a constant.  The constant stands for the text with each `n`, `t` and `r` behind a
backslash taken for the character it escapes, and so for the text itself exactly when there is no such letter. -/
theorem text_of_quoted {quote : Char} (hq : quote = '"' ∨ quote = '\'') (t : String) (rest : List Char) (scope : Scope) :
    ∃ inner c, term (quote :: (escape quote t.toList ++ quote :: rest)) = some (.quoted inner, rest) ∧
      Building.term (.quoted inner) scope = .ok (.const c, scope) ∧
      c.text = String.ofList (misread false t.toList) ∧
      (c.text = t ↔ ∀ x ∈ ['n', 't', 'r'], ¬ ['\\', x] <:+: t.toList) := by
  have hquote : quote ≠ '\\' := by rcases hq with rfl | rfl <;> decide
  have hread : quoted (quote :: (escape quote t.toList ++ quote :: rest)) =
      some (.quoted (String.ofList (escape quote t.toList)), rest) := by
    rw [quoted, if_pos (by rcases hq with rfl | rfl <;> decide), untilQuote_escape hquote]
    rfl
  have htext : (Constant.ofText (unescape (String.ofList (escape quote t.toList)))).text =
      String.ofList (misread false t.toList) := by
    rw [Constant.text_ofText, ← unescape_escape hq, String.ofList_toList]
  refine ⟨_, _, by rw [term, hread]; rfl, rfl, htext, ?_⟩
  rw [htext]
  constructor
  · intro h
    have hlist : misread false t.toList = t.toList := String.toList_ofList.symm.trans (congrArg String.toList h)
    exact ((misread_eq_iff false t.toList).1 hlist).2
  · intro h
    rw [(misread_eq_iff false t.toList).2 ⟨fun e => (by cases e), h⟩, String.ofList_toList]

/-- A backslash in front of an `n`, written as two backslashes and the `n`, comes back in front of a new line. -/
theorem text_of_quoted_newline : ∃ inner c,
    term ('"' :: (escape '"' "\\n".toList ++ ['"'])) = some (.quoted inner, []) ∧
      Building.term (.quoted inner) ⟨.empty, []⟩ = .ok (.const c, ⟨.empty, []⟩) ∧ c.text = "\\\n" ∧ c.text ≠ "\\n" := by
  obtain ⟨inner, c, hread, hbuild, htext, -⟩ := text_of_quoted (.inl rfl) "\\n" [] ⟨.empty, []⟩
  have hmisread : c.text = "\\\n" := htext
  exact ⟨inner, c, hread, hbuild, hmisread, by rw [hmisread]; decide⟩

end Grammar
end Credence
