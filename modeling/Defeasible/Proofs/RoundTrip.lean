import Defeasible.Proofs.Grammar
import Defeasible.Proofs.Storage
import Defeasible.Parse.Statement

/-!
Reading the text of what was read. The text of an accepted term spells a phrase again, but
not always of the same term: an application without arguments is written as its bare name
and comes back as a variable or a constant. Terms, predicates, rules, default rules and
queries all come back from their text exactly if no such application stands in them, or
stands where a bare name is taken for an atom.
-/

namespace Defeasible

namespace Term

mutual

/-- What is read for the text of the term. -/
def reread : Term → Term
  | .var v => .var v
  | .const c => .const c
  | .app f [] => Parse.leaf f.toList
  | .app f (t :: ts) => .app f (t.reread :: rereadList ts)

def rereadList : List Term → List Term
  | [] => []
  | t :: ts => t.reread :: rereadList ts

end

mutual

/-- Every application in the term has arguments. -/
def isExplicit : Term → Bool
  | .var _ | .const _ => true
  | .app _ [] => false
  | .app _ (t :: ts) => t.isExplicit && isExplicitList ts

def isExplicitList : List Term → Bool
  | [] => true
  | t :: ts => t.isExplicit && isExplicitList ts

end

mutual

theorem reread_eq_self (t : Term) : t.reread = t ↔ t.isExplicit = true := by
  match t with
  | .var v | .const c => simp [reread, isExplicit]
  | .app f [] =>
      have hleaf : Parse.leaf f.toList ≠ .app f [] := by
        rw [Parse.leaf]
        split <;> simp
      simp [reread, isExplicit, hleaf]
  | .app f (t :: ts) => simp [reread, isExplicit, reread_eq_self t, rereadList_eq_self ts]

theorem rereadList_eq_self (ts : List Term) :
    rereadList ts = ts ↔ isExplicitList ts = true := by
  match ts with
  | [] => simp [rereadList, isExplicitList]
  | t :: ts => simp [rereadList, isExplicitList, reread_eq_self t, rereadList_eq_self ts]

end

end Term

/-- The arguments are explicit; an atom is written as its name, which must not read as a
variable. -/
def Predicate.isExplicit (p : Predicate) : Bool :=
  if p.args.isEmpty then !p.name.toList.head?.any Char.isLower else Term.isExplicitList p.args

/-- The predicate that the query was made of. -/
def Query.predicate : Query → Predicate
  | .goal p => p
  | .time q => ⟨q.order.name, [q.first.toTerm, q.second.toTerm]⟩

namespace Parse

section Texts

variable {c : Char} {name a b : List Char} {as bs : List Token}

/-- The character may stand in an identifier. -/
def isNameChar (c : Char) : Bool := c.isAlphanum || c == '_' || c == '-'

/-- The text spells the tokens if no word goes on after it, and holds none of the characters
that rules are cut at. -/
structure Spells (text : List Char) (tokens : List Token) : Prop where
  chars : ∀ c ∈ text, isNameChar c = true ∨ c ∈ ['(', ')', ',', ' ']
  spelled_append : ∀ rest more, (∀ c ∈ rest.head?, isWordChar c = false) →
    Spelled rest more → Spelled (text ++ rest) (tokens ++ more)

theorem isWordChar_of_isNameChar (h : isNameChar c = true) : isWordChar c = true := by
  have hrange : c.toNat = 45 ∨ 48 ≤ c.toNat ∧ c.toNat ≤ 122 := by
    simp only [isNameChar, Char.isAlphanum, Bool.or_eq_true, isAlpha_iff, isDigit_iff,
      beq_iff_eq] at h
    obtain (h | rfl) | rfl := h
    · omega
    · decide
    · decide
  have hmark : ∀ d : Char, d.toNat < 45 → c ≠ d := by
    rintro d hd rfl
    omega
  simp only [isWordChar, Text.isBlank, Bool.not_eq_true', Bool.or_eq_false_iff,
    Bool.and_eq_false_iff, beq_eq_false_iff_ne, decide_eq_false_iff_not]
  refine ⟨⟨⟨?_, hmark _ (by decide)⟩, hmark _ (by decide)⟩, hmark _ (by decide)⟩
  omega

theorem Identifier.isNameChar (h : Identifier name) : ∀ c ∈ name, isNameChar c = true := by
  cases h with
  | name hc hcs =>
      simp only [List.forall_mem_cons, Parse.isNameChar, Char.isAlphanum, Bool.or_eq_true,
        beq_iff_eq] at hcs ⊢
      exact ⟨.inl (hc.imp_left .inl), fun d hd => .inl (hcs d hd)⟩
  | numeral _ hdigits =>
      intro d hd
      simp [Parse.isNameChar, Char.isAlphanum, hdigits d hd]
  | negative _ hdigits =>
      refine List.forall_mem_cons.mpr ⟨rfl, fun d hd => ?_⟩
      simp [Parse.isNameChar, Char.isAlphanum, hdigits d hd]

theorem Identifier.ne_nil (h : Identifier name) : name ≠ [] := by
  cases h with
  | name | negative => exact List.cons_ne_nil _ _
  | numeral hne => exact hne

theorem Identifier.isEmpty_ofList (h : Identifier name) :
    (String.ofList name).isEmpty = false := by
  rw [← Bool.not_eq_true, String.isEmpty_iff]
  exact fun hempty => h.ne_nil (by simpa using congrArg String.toList hempty)

theorem Identifier.spells (h : Identifier name) : Spells name [.word name] where
  chars c hc := .inl (h.isNameChar c hc)
  spelled_append _ _ hrest hspelled :=
    .word h.ne_nil (fun c hc => isWordChar_of_isNameChar (h.isNameChar c hc)) hrest hspelled

theorem Spells.append (ha : Spells a as) (hb : Spells b bs)
    (hhead : ∀ c ∈ b.head?, isWordChar c = false) : Spells (a ++ b) (as ++ bs) where
  chars c hc := (List.mem_append.mp hc).elim (ha.chars c) (hb.chars c)
  spelled_append rest more hrest hspelled := by
    rw [List.append_assoc, List.append_assoc]
    refine ha.spelled_append _ _ ?_ (hb.spelled_append rest more hrest hspelled)
    cases b with
    | nil => exact hrest
    | cons => exact hhead

theorem Spells.lparen (h : Spells a as) : Spells ('(' :: a) (.lparen :: as) where
  chars := by simpa using h.chars
  spelled_append rest more hrest hspelled := .lparen (h.spelled_append rest more hrest hspelled)

theorem Spells.comma (h : Spells a as) : Spells (',' :: ' ' :: a) (.comma :: as) where
  chars := by simpa using h.chars
  spelled_append rest more hrest hspelled :=
    .comma (.blank rfl (h.spelled_append rest more hrest hspelled))

theorem Spells.rparen (h : Spells a as) : Spells (a ++ [')']) (as ++ [.rparen]) :=
  h.append ⟨by simp, fun _ _ _ hspelled => .rparen hspelled⟩ (by simp; rfl)

theorem isWordChar_head_textTail (ts : List Term) :
    ∀ c ∈ (Term.textTail ts).toList.head?, isWordChar c = false := by
  cases ts with
  | nil => simp [Term.textTail]
  | cons => 
      simp [Term.textTail]
      rfl

mutual

theorem Phrase.hasUnnamed {tokens : List Token} {t : Term} (h : Phrase tokens t) :
    t.hasUnnamed = false := by
  match h with
  | .var _ _ | .const _ _ => rfl
  | .nullary h => simp [Term.hasUnnamed, Term.hasUnnamedList, h.isEmpty_ofList]
  | .compound h hfirst hmore =>
      simp [Term.hasUnnamed, Term.hasUnnamedList, h.isEmpty_ofList, hfirst.hasUnnamed,
        hmore.hasUnnamedList]

theorem MoreArguments.hasUnnamedList {tokens : List Token} {args : List Term}
    (h : MoreArguments tokens args) : Term.hasUnnamedList args = false := by
  match h with
  | .nil => rfl
  | .cons hfirst hmore =>
      simp [Term.hasUnnamedList, hfirst.hasUnnamed, hmore.hasUnnamedList]

end

mutual

/-- The text of an accepted term is spelled by a phrase of what is read for it. -/
theorem Phrase.spells_text {tokens : List Token} {t : Term} (h : Phrase tokens t) :
    ∃ tokens', Phrase tokens' t.reread ∧ Spells t.text.toList tokens' := by
  match h with
  | .var h hc =>
      refine ⟨_, .var h hc, ?_⟩
      simpa [Term.text] using h.spells
  | .const h hc =>
      refine ⟨_, .const h hc, ?_⟩
      simpa [Term.text] using h.spells
  | .nullary h =>
      refine ⟨_, by simpa [Term.reread] using h.leaf, ?_⟩
      simpa [Term.text] using h.spells
  | .compound h hfirst hmore =>
      obtain ⟨first', hphrase, hspells⟩ := hfirst.spells_text
      obtain ⟨more', hphrases, hspellsMore⟩ := hmore.spells_textTail
      refine ⟨_, .compound h hphrase hphrases, ?_⟩
      have harguments := (hspells.append hspellsMore (isWordChar_head_textTail _)).rparen
      simpa [Term.text] using h.spells.append harguments.lparen (by simp; rfl)

theorem MoreArguments.spells_textTail {tokens : List Token} {args : List Term}
    (h : MoreArguments tokens args) :
    ∃ tokens', MoreArguments tokens' (Term.rereadList args) ∧
      Spells (Term.textTail args).toList tokens' := by
  match h with
  | .nil => exact ⟨[], .nil, by simp [Term.textTail], fun _ _ _ hspelled => hspelled⟩
  | .cons hfirst hmore =>
      obtain ⟨first', hphrase, hspells⟩ := hfirst.spells_text
      obtain ⟨more', hphrases, hspellsMore⟩ := hmore.spells_textTail
      refine ⟨_, .cons hphrase hphrases, ?_⟩
      simpa [Term.textTail] using (hspells.append hspellsMore (isWordChar_head_textTail _)).comma

end

end Texts

section Reading

variable {input before after : List Char} {t : Term} {p : Predicate}

theorem Spelled.blanks {cs : List Char} {tokens : List Token}
    (hbefore : ∀ c ∈ before, Text.isBlank c = true) (h : Spelled cs tokens) :
    Spelled (before ++ cs) tokens := by
  induction before with
  | nil => exact h
  | cons c before ih =>
      rw [List.forall_mem_cons] at hbefore
      exact .blank hbefore.1 (ih hbefore.2)

/-- The text of an accepted term is accepted, with blanks around it or not. -/
theorem term_text (h : term input = .ok t) (before after : List Char)
    (hbefore : ∀ c ∈ before, Text.isBlank c = true)
    (hafter : ∀ c ∈ after, Text.isBlank c = true) :
    term (before ++ t.text.toList ++ after) = .ok t.reread := by
  obtain ⟨tokens, -, hphrase⟩ := term_eq_ok.mp h
  obtain ⟨tokens', hphrase', hspells⟩ := hphrase.spells_text
  refine term_eq_ok.mpr ⟨tokens', ?_, hphrase'⟩
  have hend : Spelled after [] := by simpa using Spelled.nil.blanks hafter
  have hhead : ∀ c ∈ after.head?, isWordChar c = false := fun c hc =>
    isWordChar_eq_false.mpr (.inl (hafter c (List.mem_of_mem_head? hc)))
  simpa using (hspells.spelled_append after [] hhead hend).blanks hbefore

theorem predicate_eq_ok : predicate input = .ok p ↔
    term input = .ok p.toTerm ∨ p.args = [] ∧ term input = .ok (.const p.name) := by
  rw [predicate, bind_eq_ok]
  obtain ⟨name, args⟩ := p
  constructor
  · rintro ⟨t, hterm, hp⟩
    cases t with
    | var v => cases hp
    | const c =>
        cases hp
        exact .inr ⟨rfl, hterm⟩
    | app f args =>
        cases hp
        exact .inl hterm
  · rintro (hterm | ⟨rfl, hterm⟩)
    · exact ⟨_, hterm, rfl⟩
    · exact ⟨_, hterm, rfl⟩

theorem hasUnnamed_of_predicate (h : predicate input = .ok p) :
    p.hasUnnamed = false := by
  obtain hterm | ⟨hargs, hterm⟩ := predicate_eq_ok.mp h
  · obtain ⟨tokens, -, hphrase⟩ := term_eq_ok.mp hterm
    exact hphrase.hasUnnamed
  · obtain ⟨tokens, -, hphrase⟩ := term_eq_ok.mp hterm
    generalize hconst : Term.const p.name = t at hphrase
    cases hphrase with
    | const hname =>
        simp [Predicate.hasUnnamed, Predicate.toTerm, Term.hasUnnamed, Term.hasUnnamedList, hargs,
          Term.const.inj hconst]
    | var | nullary | compound => cases hconst

theorem predicate_text (h : predicate input = .ok p) (before after : List Char)
    (hbefore : ∀ c ∈ before, Text.isBlank c = true)
    (hafter : ∀ c ∈ after, Text.isBlank c = true) :
    predicate (before ++ p.text.toList ++ after) = .ok p ↔ p.isExplicit = true := by
  obtain ⟨name, args⟩ := p
  obtain hterm | ⟨rfl, hterm⟩ := predicate_eq_ok.mp h
  · rw [predicate_eq_ok, Predicate.text, term_text hterm before after hbefore hafter]
    cases args with
    | nil =>
        cases hlower : name.toList.head?.any Char.isLower <;>
          simp [Predicate.toTerm, Predicate.isExplicit, Term.reread, leaf, hlower]
    | cons arg args =>
        have hargs := Term.rereadList_eq_self (arg :: args)
        rw [Term.rereadList] at hargs
        simpa [Predicate.toTerm, Predicate.isExplicit, Term.reread] using hargs
  · have hupper : name.toList.head?.any Char.isLower = false := by
      obtain ⟨tokens, -, hphrase⟩ := term_eq_ok.mp hterm
      cases hphrase with
      | const _ hc =>
          change (String.ofList _).toList.head?.any Char.isLower = false
          simpa using hc
    have htext := term_text hterm before after hbefore hafter
    rw [Term.text, Term.reread] at htext
    rw [predicate_eq_ok, Predicate.text, Predicate.toTerm, Term.text, htext]
    simp [Predicate.isExplicit, hupper]

/-- No character that ends a separator stands in the text of an accepted predicate. -/
theorem notMem_text (h : predicate input = .ok p) {mark : Char} (hmark : mark ∈ ['>', '@']) :
    mark ∉ p.text.toList := by
  obtain ⟨t, ht, htext⟩ : ∃ t, term input = .ok t ∧ t.text = p.text := by
    obtain hterm | ⟨hargs, hterm⟩ := predicate_eq_ok.mp h
    · exact ⟨_, hterm, rfl⟩
    · refine ⟨_, hterm, ?_⟩
      rw [Predicate.text, Predicate.toTerm, hargs, Term.text, Term.text]
  obtain ⟨tokens, -, hphrase⟩ := term_eq_ok.mp ht
  obtain ⟨tokens', -, hspells⟩ := hphrase.spells_text
  intro hmem
  have hchars := hspells.chars mark (htext ▸ hmem)
  obtain rfl | rfl : mark = '>' ∨ mark = '@' := by simpa using hmark
  all_goals
    revert hchars
    decide

end Reading

section Cutting

variable {separator before : List Char} {last : Char}

/-- The separator ends with a character that stands nowhere before it, so the text is cut
there and not earlier. -/
theorem cut?_append (hseparator : last ∉ separator) (hbefore : last ∉ before)
    (after : List Char) :
    Text.cut? (separator ++ [last]) (before ++ (separator ++ [last] ++ after)) =
      some (before, after) := by
  induction before with
  | nil =>
      have hstrip := Text.stripStart?_eq_some.mpr (Eq.refl (separator ++ [last] ++ after))
      rw [List.nil_append]
      cases hcs : separator ++ [last] ++ after with
      | nil => simp at hcs
      | cons c cs =>
          rw [hcs] at hstrip
          rw [Text.cut?, hstrip]
  | cons c before ih =>
      have hstrip : Text.stripStart? (separator ++ [last])
          (c :: (before ++ (separator ++ [last] ++ after))) = none := by
        refine Option.eq_none_iff_forall_ne_some.mpr fun rest hrest => ?_
        -- the first place of the last character would be too early
        have hplace := congrArg (List.idxOf last) (Text.stripStart?_eq_some.mp hrest)
        have hstart : last ∉ c :: before ++ separator := by
          rw [List.mem_append]
          exact not_or.mpr ⟨hbefore, hseparator⟩
        have htext : c :: (before ++ (separator ++ [last] ++ after)) =
            (c :: before ++ separator) ++ last :: after := by simp
        rw [htext, List.idxOf_append_of_notMem hstart, List.append_assoc,
          List.idxOf_append_of_notMem hseparator] at hplace
        simp only [List.length_append, List.length_cons, List.idxOf_cons_self,
          List.cons_append] at hplace
        omega
      rw [List.mem_cons, not_or] at hbefore
      rw [List.cons_append, Text.cut?, hstrip, ih hbefore.2]
      rfl

theorem cut?_eq_none {mark : Char} {cs : List Char} (h : mark ∉ cs) :
    Text.cut? [mark] cs = none := by
  induction cs with
  | nil => rfl
  | cons c cs ih =>
      rw [List.mem_cons, not_or] at h
      simp [Text.cut?, Text.stripStart?, h.1, ih h.2]

end Cutting

section Statements

variable {input : List Char} {p : Predicate}

theorem cutArrow_eq_ok {arrow : String} {parts : List Char × List Char} :
    cutArrow arrow input = .ok parts ↔ Text.cut? arrow.toList input = some parts := by
  rw [cutArrow]
  cases Text.cut? arrow.toList input <;> simp

theorem rule_eq_ok {r : Rule} : rule input = .ok r ↔ ∃ before after,
    Text.cut? "->".toList input = some (before, after) ∧
      predicate before = .ok r.premise ∧ predicate after = .ok r.conclusion := by
  rw [rule, bind_eq_ok]
  simp only [Prod.exists, cutArrow_eq_ok, bind_eq_ok, pure, Except.pure, Except.ok.injEq]
  constructor
  · rintro ⟨before, after, hcut, p, hp, q, hq, rfl⟩
    exact ⟨before, after, hcut, hp, hq⟩
  · rintro ⟨before, after, hcut, hp, hq⟩
    exact ⟨before, after, hcut, _, hp, _, hq, rfl⟩

theorem priority_eq_ok {part : List Char} {value : Single} :
    priority input part = .ok value ↔ Single.ofText? (Text.trim part) = some value := by
  rw [priority]
  cases Single.ofText? (Text.trim part) <;> simp

theorem defaultRule_eq_ok {r : DefaultRule} : defaultRule input = .ok r ↔ ∃ before rest,
    Text.cut? "~>".toList input = some (before, rest) ∧
      ((Text.cut? ['@'] rest = none ∧ predicate before = .ok r.premise ∧
          predicate rest = .ok r.conclusion ∧ .full = r.priority) ∨
        ∃ after part value, Text.cut? ['@'] rest = some (after, part) ∧
          Single.ofText? (Text.trim part) = some value ∧ predicate before = .ok r.premise ∧
          predicate after = .ok r.conclusion ∧ Certainty.ofSingle value = .ok r.priority) := by
  obtain ⟨premise, conclusion, degree⟩ := r
  rw [defaultRule, bind_eq_ok]
  simp only [Prod.exists, cutArrow_eq_ok]
  refine exists_congr fun before => exists_congr fun rest => and_congr_right fun _ => ?_
  cases Text.cut? ['@'] rest with
  | none => simp [bind_eq_ok, pure, Except.pure]
  | some parts =>
      obtain ⟨after, part⟩ := parts
      simp [bind_eq_ok, priority_eq_ok, pure, Except.pure]

/-- A blank before a text without blanks is all that is dropped. -/
theorem trim_cons {c : Char} {cs : List Char} (hc : Text.isBlank c = true)
    (hcs : ∀ d ∈ cs, Text.isBlank d = false) : Text.trim (c :: cs) = cs := by
  have hdrop : ∀ ds : List Char, (∀ d ∈ ds, Text.isBlank d = false) →
      ds.dropWhile Text.isBlank = ds := by
    intro ds hds
    cases ds with
    | nil => rfl
    | cons d ds => simp [hds d (.head _)]
  rw [Text.trim, List.dropWhile_cons_of_pos hc, hdrop cs hcs, hdrop _ (by simpa using hcs),
    List.reverse_reverse]

theorem mem_positional {n : Nat} {k : Int} {c : Char}
    (h : c ∈ (Single.positional n k).toList) : c.isDigit = true ∨ c = '.' := by
  have hdigits : ∀ d ∈ Nat.toDigits 10 n, d.isDigit = true := fun d hd =>
    Nat.isDigit_of_mem_toDigits (by decide) (by decide) hd
  have hzeros : ∀ m, ∀ d ∈ List.replicate m '0', d.isDigit = true := fun m d hd => by
    rw [List.eq_of_mem_replicate hd]
    rfl
  rw [Single.positional] at h
  split at h
  · rw [String.toList_ofList, List.mem_append] at h
    exact .inl (h.elim (hdigits c) (hzeros _ c))
  · rw [String.toList_ofList, List.mem_append, List.mem_cons] at h
    have hpadded : ∀ d ∈ List.replicate ((-k).toNat + 1 - (Nat.toDigits 10 n).length) '0' ++
        Nat.toDigits 10 n, d.isDigit = true := fun d hd =>
      (List.mem_append.mp hd).elim (hzeros _ d) (hdigits d)
    obtain h | h | h := h
    · exact .inl (hpadded c (List.mem_of_mem_take h))
    · exact .inr h
    · exact .inl (hpadded c (List.mem_of_mem_drop h))

theorem isBlank_priority (c : Certainty) : ∀ d ∈ c.text.toList, Text.isBlank d = false := by
  intro d hd
  have hchar : d.isDigit = true ∨ d = '.' := by
    have hlt : c.rank < BinaryFormat.single.overflow := Nat.lt_of_le_of_lt c.le_one (by decide)
    simp only [Certainty.text, Certainty.toSingle, Single.ofRank, hlt, ↓reduceDIte, Single.text,
      Bool.false_eq_true, ↓reduceIte] at hd
    split at hd
    · rw [List.mem_singleton.mp hd]
      exact .inl rfl
    · exact mem_positional hd
  obtain hdigit | rfl := hchar
  · have hword : isWordChar d = true :=
      isWordChar_of_isNameChar (by simp [isNameChar, Char.isAlphanum, hdigit])
    simp only [isWordChar, Bool.not_eq_true', Bool.or_eq_false_iff] at hword
    exact hword.1.1.1
  · decide

/-- A rule's text is cut at its arrow. -/
theorem cut?_arrow (h : predicate input = .ok p) (stem : Char) (hstem : '>' ∉ [stem])
    (rest : List Char) : Text.cut? [stem, '>'] (p.text.toList ++ ' ' :: stem :: '>' :: rest) =
      some (p.text.toList ++ [' '], rest) := by
  have hmark : '>' ∉ p.text.toList := notMem_text h (.head _)
  have hbefore : '>' ∉ p.text.toList ++ [' '] := by simpa using hmark
  simpa using cut?_append hstem hbefore rest

/-- The part after the arrow is cut at its priority. -/
theorem cut?_priority (h : predicate input = .ok p) (rest : List Char) :
    Text.cut? ['@'] (' ' :: (p.text.toList ++ ' ' :: '@' :: rest)) =
      some (' ' :: (p.text.toList ++ [' ']), rest) := by
  have hmark : '@' ∉ p.text.toList := notMem_text h (.tail _ (.head _))
  have hbefore : '@' ∉ ' ' :: (p.text.toList ++ [' ']) := by simpa using hmark
  simpa using cut?_append List.not_mem_nil hbefore rest

theorem isBlank_space : ∀ c ∈ [' '], Text.isBlank c = true := List.forall_mem_singleton.mpr rfl

theorem rule_text {r : Rule} (h : rule input = .ok r) : rule r.text.toList = .ok r ↔
    r.premise.isExplicit = true ∧ r.conclusion.isExplicit = true := by
  obtain ⟨before, after, -, hpremise, hconclusion⟩ := rule_eq_ok.mp h
  have hcut := cut?_arrow hpremise '-' (by decide) (' ' :: r.conclusion.text.toList)
  have htext : r.text.toList =
      r.premise.text.toList ++ ' ' :: '-' :: '>' :: ' ' :: r.conclusion.text.toList := by
    simp [Rule.text]
  have hbefore := predicate_text hpremise [] [' '] (by simp) isBlank_space
  have hafter := predicate_text hconclusion [' '] [] isBlank_space (by simp)
  simp only [List.nil_append, List.append_nil, List.singleton_append] at hbefore hafter
  simp [rule_eq_ok, htext, hcut, hbefore, hafter]

/-- The text of a priority stands alone after its blank. -/
theorem trim_priority (c : Certainty) : Text.trim (' ' :: c.text.toList) = c.text.toList :=
  trim_cons rfl (isBlank_priority c)

theorem defaultRule_text {r : DefaultRule} (h : defaultRule input = .ok r)
    (hpriority : Single.ofText? r.priority.text.toList = some r.priority.toSingle) :
    defaultRule r.text.toList = .ok r ↔
      r.premise.isExplicit = true ∧ r.conclusion.isExplicit = true := by
  obtain ⟨before, after, hpremise, hconclusion⟩ : ∃ before after : List Char,
      predicate before = .ok r.premise ∧ predicate after = .ok r.conclusion := by
    obtain ⟨before, rest, -, ⟨-, hp, hq, -⟩ | ⟨after, -, -, -, -, hp, hq, -⟩⟩ :=
      defaultRule_eq_ok.mp h
    · exact ⟨before, rest, hp, hq⟩
    · exact ⟨before, after, hp, hq⟩
  have hbefore := predicate_text hpremise [] [' '] (by simp) isBlank_space
  rw [List.nil_append] at hbefore
  by_cases hfull : r.priority = .full
  · have hcut := cut?_arrow hpremise '~' (by decide) (' ' :: r.conclusion.text.toList)
    have htext : r.text.toList =
        r.premise.text.toList ++ ' ' :: '~' :: '>' :: ' ' :: r.conclusion.text.toList := by
      simp [DefaultRule.text, hfull]
    have hmark : '@' ∉ ' ' :: r.conclusion.text.toList := by
      simpa using notMem_text hconclusion (.tail '>' (.head []))
    have hafter := predicate_text hconclusion [' '] [] isBlank_space (by simp)
    simp only [List.append_nil, List.singleton_append] at hafter
    simp [defaultRule_eq_ok, htext, hcut, cut?_eq_none hmark, hbefore, hafter, hfull]
  · have hcut := cut?_arrow hpremise '~' (by decide)
      (' ' :: (r.conclusion.text.toList ++ ' ' :: '@' :: ' ' :: r.priority.text.toList))
    have htext : r.text.toList = r.premise.text.toList ++ ' ' :: '~' :: '>' :: ' ' ::
        (r.conclusion.text.toList ++ ' ' :: '@' :: ' ' :: r.priority.text.toList) := by
      simp [DefaultRule.text, hfull]
    have hafter := predicate_text hconclusion [' '] [' '] isBlank_space isBlank_space
    simp only [List.cons_append, List.nil_append] at hafter
    simp [defaultRule_eq_ok, htext, hcut, cut?_priority hconclusion, hbefore, hafter,
      trim_priority, hpriority, Certainty.ofSingle_toSingle]

end Statements

section Queries

variable {input : List Char} {q : Query}

theorem name_of_ofName? {name : String} {order : TimeOrder}
    (h : TimeOrder.ofName? name = some order) : order.name = name := by
  rw [TimeOrder.ofName?] at h
  split at h
  · cases h
    exact Eq.symm ‹_›
  · split at h
    · cases h
      exact Eq.symm ‹_›
    · cases h

theorem predicate_ofPredicate (p : Predicate) : (Query.ofPredicate p).predicate = p := by
  rw [Query.ofPredicate]
  split
  next q hq =>
    rw [TimeQuery.ofPredicate?] at hq
    split at hq
    next order f xs g ys horder hargs =>
      cases hq
      rw [Query.predicate, name_of_ofName? horder]
      cases p
      cases hargs
      rfl
    next => cases hq
  next => rfl

theorem text_predicate (q : Query) : q.predicate.text = q.text := by
  cases q with
  | goal p => rfl
  | time q =>
      simp [Query.predicate, Query.text, TimeQuery.text, Predicate.text, Predicate.toTerm,
        Term.text, Term.textTail, String.append_assoc]

theorem query_eq_ok : query input = .ok q ↔
    ∃ p, predicate input = .ok p ∧ Query.ofPredicate p = q := by
  rw [query]
  cases predicate input <;> simp [Except.map]

theorem query_text (h : query input = .ok q) :
    query q.text.toList = .ok q ↔ q.predicate.isExplicit = true := by
  obtain ⟨p, hp, rfl⟩ := query_eq_ok.mp h
  rw [← text_predicate, predicate_ofPredicate, query_eq_ok]
  have htext := predicate_text hp [] [] (by simp) (by simp)
  rw [List.nil_append, List.append_nil] at htext
  rw [← htext]
  constructor
  · rintro ⟨p', hp', heq⟩
    have := congrArg Query.predicate heq
    rw [predicate_ofPredicate, predicate_ofPredicate] at this
    rw [hp', this]
  · exact fun h => ⟨p, h, rfl⟩

end Queries

/-- What a reader accepts comes back from its own text exactly if no application in it is
without arguments. A whole predicate may be without, unless its name reads as a variable. -/
theorem text_reads_back_iff (input : List Char) :
    (∀ t, term input = .ok t → (term t.text.toList = .ok t ↔ t.isExplicit = true)) ∧
    (∀ p, predicate input = .ok p →
      (predicate p.text.toList = .ok p ↔ p.isExplicit = true)) ∧
    (∀ r, rule input = .ok r →
      (rule r.text.toList = .ok r ↔
        r.premise.isExplicit = true ∧ r.conclusion.isExplicit = true)) ∧
    (∀ r, defaultRule input = .ok r →
      Single.ofText? r.priority.text.toList = some r.priority.toSingle →
      (defaultRule r.text.toList = .ok r ↔
        r.premise.isExplicit = true ∧ r.conclusion.isExplicit = true)) ∧
    (∀ q, query input = .ok q →
      (query q.text.toList = .ok q ↔ q.predicate.isExplicit = true)) := by
  refine ⟨fun t ht => ?_, fun p hp => ?_, fun r hr => rule_text hr,
    fun r hr hpriority => defaultRule_text hr hpriority, fun q hq => query_text hq⟩
  · have htext := term_text ht [] [] (by simp) (by simp)
    rw [List.nil_append, List.append_nil] at htext
    rw [htext, Except.ok.injEq, Term.reread_eq_self]
  · simpa using predicate_text hp [] [] (by simp) (by simp)

theorem text_reads_back_flies :
    let t := Term.app "Knows" [.var "x", .app "Friend" [.var "y", .const "Bob"]]
    let r : DefaultRule :=
      ⟨⟨"Bird", [.var "x"]⟩, ⟨"Flies", [.var "x"]⟩, ⟨0x3F19999A, by decide⟩⟩
    term "Knows(x,Friend(y, Bob) )".toList = .ok t ∧ term t.text.toList = .ok t ∧
    defaultRule "Bird(x)~>Flies(x)@.60".toList = .ok r ∧
    Single.ofText? r.priority.text.toList = some r.priority.toSingle ∧
    defaultRule r.text.toList = .ok r := by
  intro t r
  have ht : term "Knows(x,Friend(y, Bob) )".toList = .ok t := by rfl
  have hr : defaultRule "Bird(x)~>Flies(x)@.60".toList = .ok r := by decide +kernel
  have hpriority : Single.ofText? r.priority.text.toList = some r.priority.toSingle := by
    decide +kernel
  exact ⟨ht, ((text_reads_back_iff _).1 t ht).mpr rfl, hr, hpriority,
    ((text_reads_back_iff _).2.2.2.1 r hr hpriority).mpr ⟨rfl, rfl⟩⟩

/-- Written as a bare name, an application without arguments becomes a constant, a question
about the time of events becomes a goal, and an atom becomes a variable, which is refused. -/
theorem nullary_reads_back_apart :
    (∃ t, term "P(A())".toList = .ok t ∧ term t.text.toList ≠ .ok t) ∧
    (∃ p, predicate "rain()".toList = .ok p ∧ ∀ p', predicate p.text.toList ≠ .ok p') ∧
    (∃ r, rule "P(A()) -> Q".toList = .ok r ∧ rule r.text.toList ≠ .ok r) ∧
    (∃ r, defaultRule "P(A()) ~> Q".toList = .ok r ∧ defaultRule r.text.toList ≠ .ok r) ∧
    ∃ q, query "Before(Lunch(), Dinner())".toList = .ok (.time q) ∧
      query q.text.toList = .ok (.goal ⟨"Before", [.const "Lunch", .const "Dinner"]⟩) := by
  refine ⟨⟨.app "P" [.app "A" []], rfl, by decide⟩, ⟨⟨"rain", []⟩, rfl, nofun⟩, ?_, ?_, ?_⟩
  · exact ⟨⟨⟨"P", [.app "A" []]⟩, ⟨"Q", []⟩⟩, by decide +kernel, by decide +kernel⟩
  · exact ⟨⟨⟨"P", [.app "A" []]⟩, ⟨"Q", []⟩, .full⟩, by decide +kernel, by decide +kernel⟩
  · exact ⟨⟨.before, ⟨"Lunch", []⟩, ⟨"Dinner", []⟩⟩, by decide +kernel, by decide +kernel⟩

end Parse
end Defeasible
