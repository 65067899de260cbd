import Mathlib.Data.List.Basic
import Defeasible.Parse.Term

/-!
The grammar of terms, apart from the reader. A text spells a list of tokens if it has
nothing but blanks around them and every word is as long as it can be, and a list of tokens
is the phrase of a term. The reader accepts exactly the texts that spell a phrase, and what
it returns is the term of that phrase. A refused token has its place inside the text.
-/

namespace Defeasible.Parse

/-- A letter or underscore with letters, digits and underscores after it, or a numeral that
may have a minus. -/
inductive Identifier : List Char → Prop where
  | name {c : Char} {cs : List Char} : c.isAlpha = true ∨ c = '_' →
      (∀ d ∈ cs, d.isAlphanum = true ∨ d = '_') → Identifier (c :: cs)
  | numeral {digits : List Char} : digits ≠ [] → (∀ d ∈ digits, d.isDigit = true) →
      Identifier digits
  | negative {digits : List Char} : digits ≠ [] → (∀ d ∈ digits, d.isDigit = true) →
      Identifier ('-' :: digits)

/-- The text is made of the tokens in their order, with blanks between and around them. A
word goes on to the next blank, parenthesis or comma. -/
inductive Spelled : List Char → List Token → Prop where
  | nil : Spelled [] []
  | blank {c : Char} {cs : List Char} {tokens : List Token} : Text.isBlank c = true →
      Spelled cs tokens → Spelled (c :: cs) tokens
  | lparen {cs : List Char} {tokens : List Token} : Spelled cs tokens →
      Spelled ('(' :: cs) (.lparen :: tokens)
  | rparen {cs : List Char} {tokens : List Token} : Spelled cs tokens →
      Spelled (')' :: cs) (.rparen :: tokens)
  | comma {cs : List Char} {tokens : List Token} : Spelled cs tokens →
      Spelled (',' :: cs) (.comma :: tokens)
  | word {name cs : List Char} {tokens : List Token} : name ≠ [] →
      (∀ c ∈ name, isWordChar c = true) → (∀ c ∈ cs.head?, isWordChar c = false) →
      Spelled cs tokens → Spelled (name ++ cs) (.word name :: tokens)

mutual

/-- The tokens are those of the term. -/
inductive Phrase : List Token → Term → Prop where
  | var {c : Char} {cs : List Char} : Identifier (c :: cs) → c.isLower = true →
      Phrase [.word (c :: cs)] (.var (String.ofList (c :: cs)))
  | const {c : Char} {cs : List Char} : Identifier (c :: cs) → c.isLower = false →
      Phrase [.word (c :: cs)] (.const (String.ofList (c :: cs)))
  | nullary {name : List Char} : Identifier name →
      Phrase [.word name, .lparen, .rparen] (.app (String.ofList name) [])
  | compound {name : List Char} {first : Term} {args : List Term} {tokens more : List Token} :
      Identifier name → Phrase tokens first → MoreArguments more args →
      Phrase (.word name :: .lparen :: (tokens ++ more ++ [.rparen]))
        (.app (String.ofList name) (first :: args))

/-- The tokens are those of further arguments, each after a comma. -/
inductive MoreArguments : List Token → List Term → Prop where
  | nil : MoreArguments [] []
  | cons {t : Term} {args : List Term} {tokens more : List Token} : Phrase tokens t →
      MoreArguments more args → MoreArguments (.comma :: (tokens ++ more)) (t :: args)

end

section Identifier

variable {name : List Char} {c : Char}

theorem isAlpha_iff :
    c.isAlpha = true ↔ 65 ≤ c.toNat ∧ c.toNat ≤ 90 ∨ 97 ≤ c.toNat ∧ c.toNat ≤ 122 := by
  have hrange : c.isAlpha = (decide (65 ≤ c.toNat ∧ c.toNat ≤ 90) ||
      decide (97 ≤ c.toNat) && decide (c.toNat ≤ 122)) := rfl
  simp only [hrange, Bool.or_eq_true, Bool.and_eq_true, decide_eq_true_eq]

theorem isDigit_iff : c.isDigit = true ↔ 48 ≤ c.toNat ∧ c.toNat ≤ 57 := by
  have hrange : c.isDigit = (decide (48 ≤ c.toNat) && decide (c.toNat ≤ 57)) := rfl
  simp only [hrange, Bool.and_eq_true, decide_eq_true_eq]

theorem isDigit_eq_false_of_letter (h : c.isAlpha = true ∨ c = '_') : c.isDigit = false := by
  obtain h | rfl := h
  · rw [isAlpha_iff] at h
    rw [Bool.eq_false_iff, Ne, isDigit_iff]
    omega
  · rfl

theorem identifier_of_isIdentifier (h : isIdentifier name = true) : Identifier name := by
  unfold isIdentifier at h
  split at h
  · cases h
  · simp only [Bool.and_eq_true, Bool.not_eq_true', List.isEmpty_eq_false_iff,
      List.all_eq_true] at h
    exact .negative h.1 h.2
  · split at h
    next hdigit =>
      refine .numeral (List.cons_ne_nil _ _) ?_
      simpa [hdigit] using h
    next =>
      simp only [Bool.and_eq_true, Bool.or_eq_true, beq_iff_eq, List.all_eq_true] at h
      exact .name h.1 h.2

theorem isIdentifier_of_identifier (h : Identifier name) : isIdentifier name = true := by
  cases h with
  | @name c cs hc hcs =>
      have hminus : c ≠ '-' := by
        rintro rfl
        revert hc
        decide
      simpa [isIdentifier, hminus, isDigit_eq_false_of_letter hc] using ⟨hc, hcs⟩
  | numeral hne hdigits =>
      cases name with
      | nil => exact absurd rfl hne
      | cons c cs =>
          have hc := hdigits c (.head _)
          have hminus : c ≠ '-' := by
            rintro rfl
            revert hc
            decide
          simpa [isIdentifier, hminus, hc] using fun d hd => hdigits d (List.mem_cons_of_mem c hd)
  | negative hne hdigits => simpa [isIdentifier, hne] using hdigits

theorem isIdentifier_iff : isIdentifier name = true ↔ Identifier name :=
  ⟨identifier_of_isIdentifier, isIdentifier_of_identifier⟩

theorem Identifier.leaf (h : Identifier name) : Phrase [.word name] (leaf name) := by
  cases name with
  | nil => cases h with | numeral hne => exact absurd rfl hne
  | cons c cs =>
      cases hc : c.isLower with
      | true => simpa [Parse.leaf, hc] using Phrase.var h hc
      | false => simpa [Parse.leaf, hc] using Phrase.const h hc

end Identifier

section Tokens

variable {offset : Nat} {c : Char} {cs name : List Char} {tokens : List Token}

theorem isWordChar_eq_false :
    isWordChar c = false ↔ Text.isBlank c = true ∨ c = '(' ∨ c = ')' ∨ c = ',' := by
  simp only [isWordChar, Bool.not_eq_false', Bool.or_eq_true, beq_iff_eq, or_assoc]

theorem lexemes_blank (h : Text.isBlank c = true) :
    lexemes offset (c :: cs) = lexemes (offset + c.utf8Size) cs := by
  simp [lexemes, h]

theorem lexemes_wordChar (h : isWordChar c = true) :
    lexemes offset (c :: cs) = prependWordChar c offset (lexemes (offset + c.utf8Size) cs) := by
  have hother := mt isWordChar_eq_false.mpr (Bool.not_eq_false _ ▸ h)
  simp only [not_or] at hother
  simp [lexemes, hother]

theorem mem_prependWordChar {l : Lexeme} {ls : List Lexeme} (h : l ∈ prependWordChar c offset ls) :
    l.offset = offset ∨ l ∈ ls := by
  unfold prependWordChar at h
  split at h
  · split at h
    · obtain rfl | h := List.mem_cons.mp h
      · exact .inl rfl
      · exact .inr (.tail _ h)
    · obtain rfl | h := List.mem_cons.mp h
      · exact .inl rfl
      · exact .inr h
  · obtain rfl | h := List.mem_cons.mp h
    · exact .inl rfl
    · exact .inr h

theorem mem_lexemes_cons {l : Lexeme} (h : l ∈ lexemes offset (c :: cs)) :
    l.offset = offset ∨ l ∈ lexemes (offset + c.utf8Size) cs := by
  cases hword : isWordChar c with
  | true =>
      rw [lexemes_wordChar hword] at h
      exact mem_prependWordChar h
  | false =>
      obtain hblank | rfl | rfl | rfl := isWordChar_eq_false.mp hword
      · rw [lexemes_blank hblank] at h
        exact .inr h
      all_goals
        obtain rfl | h := List.mem_cons.mp h
        · exact .inl rfl
        · exact .inr h

/-- Every token starts inside the text. -/
theorem offset_of_mem_lexemes {l : Lexeme} (h : l ∈ lexemes offset cs) :
    offset ≤ l.offset ∧ l.offset ≤ offset + Text.byteLength cs := by
  induction cs generalizing offset with
  | nil => cases h
  | cons c cs ih =>
      rw [Text.byteLength]
      obtain h | h := mem_lexemes_cons h
      · omega
      · have := ih h
        omega

/-- A text that starts with no word character has no word at its start. -/
theorem offset_lt_of_lexemes (h : ∀ c ∈ cs.head?, isWordChar c = false) {start : Nat}
    {rest : List Lexeme} (heq : lexemes offset cs = ⟨.word name, start⟩ :: rest) :
    offset < start := by
  cases cs with
  | nil => cases heq
  | cons c cs =>
      obtain hblank | rfl | rfl | rfl := isWordChar_eq_false.mp (h c rfl)
      · rw [lexemes_blank hblank] at heq
        have hstart := (offset_of_mem_lexemes (heq ▸ List.mem_cons_self)).1
        exact Nat.lt_of_lt_of_le (Nat.lt_add_of_pos_right (Char.utf8Size_pos c)) hstart
      all_goals cases heq

theorem lexemes_word (hne : name ≠ []) (hname : ∀ c ∈ name, isWordChar c = true)
    (hcs : ∀ c ∈ cs.head?, isWordChar c = false) (offset : Nat) :
    lexemes offset (name ++ cs) =
      ⟨.word name, offset⟩ :: lexemes (offset + Text.byteLength name) cs := by
  induction name generalizing offset with
  | nil => exact absurd rfl hne
  | cons c name ih =>
      rw [List.cons_append, lexemes_wordChar (hname c (.head _))]
      cases name with
      | nil =>
          simp only [List.nil_append, Text.byteLength, Nat.add_zero]
          unfold prependWordChar
          split
          next start rest heq =>
            have hlt := offset_lt_of_lexemes hcs heq
            rw [if_neg (Nat.ne_of_gt hlt), ← heq]
          next => rfl
      | cons d name =>
          rw [ih (List.cons_ne_nil _ _) (fun b hb => hname b (.tail _ hb))]
          simp [prependWordChar, Text.byteLength, Nat.add_assoc]

theorem Spelled.tokens_eq (h : Spelled cs tokens) (offset : Nat) :
    (lexemes offset cs).map Lexeme.token = tokens := by
  induction h generalizing offset with
  | nil => rfl
  | blank hblank _ ih => rw [lexemes_blank hblank, ih]
  | lparen _ ih | rparen _ ih | comma _ ih => exact congrArg _ (ih _)
  | word hne hname hcs _ ih => rw [lexemes_word hne hname hcs, List.map_cons, ih]

theorem exists_spelled (cs : List Char) : ∃ tokens, Spelled cs tokens := by
  induction cs with
  | nil => exact ⟨_, .nil⟩
  | cons c cs ih =>
      obtain ⟨tokens, h⟩ := ih
      cases hc : isWordChar c with
      | false =>
          obtain hblank | rfl | rfl | rfl := isWordChar_eq_false.mp hc
          · exact ⟨_, .blank hblank h⟩
          · exact ⟨_, .lparen h⟩
          · exact ⟨_, .rparen h⟩
          · exact ⟨_, .comma h⟩
      | true =>
          have halone : (∀ d ∈ cs.head?, isWordChar d = false) →
              ∃ tokens, Spelled (c :: cs) tokens := fun hcs =>
            ⟨_, .word (List.cons_ne_nil c []) (by simpa using hc) hcs h⟩
          cases h with
          | nil => exact halone (by simp)
          | blank hblank => exact halone (by simpa using isWordChar_eq_false.mpr (.inl hblank))
          | lparen | rparen | comma =>
              refine halone fun d hd => ?_
              cases hd
              rfl
          | word _ hname hcs h =>
              exact ⟨_, .word (List.cons_ne_nil c _) (by simpa [hc] using hname) hcs h⟩

/-- Every text spells the tokens that it is cut into, and no others. -/
theorem spelled_iff (offset : Nat) :
    Spelled cs tokens ↔ (lexemes offset cs).map Lexeme.token = tokens := by
  constructor
  · exact fun h => h.tokens_eq offset
  · rintro rfl
    obtain ⟨tokens, h⟩ := exists_spelled cs
    rwa [h.tokens_eq offset]

end Tokens

section Machine

/-- After the term, the tokens close the open frames, and the whole term is the last one. -/
def Closes : List Frame → Term → List Token → Term → Prop
  | [], t, tokens, whole => tokens = [] ∧ t = whole
  | f :: frames, t, tokens, whole => ∃ more args rest, tokens = more ++ .rparen :: rest ∧
      MoreArguments more args ∧
      Closes frames (.app (String.ofList f.name) (f.args.reverse ++ t :: args)) rest whole

/-- The tokens go on with a phrase, or close the innermost frame before its first argument. -/
def Opens (frames : List Frame) (tokens : List Token) (whole : Term) : Prop :=
  (∃ phrase rest t, tokens = phrase ++ rest ∧ Phrase phrase t ∧ Closes frames t rest whole) ∨
  ∃ name outer rest, frames = ⟨name, []⟩ :: outer ∧ tokens = .rparen :: rest ∧
    Closes outer (.app (String.ofList name) []) rest whole

/-- From the state on, the tokens complete the term. -/
def State.Completes : State → List Token → Term → Prop
  | .start frames, tokens, whole => Opens frames tokens whole
  | .named name frames, tokens, whole => Closes frames (leaf name) tokens whole ∨
      ∃ rest, tokens = .lparen :: rest ∧ Opens (⟨name, []⟩ :: frames) rest whole
  | .ended t frames, tokens, whole => Closes frames t tokens whole

variable {frames : List Frame} {t whole : Term} {token : Token} {tokens : List Token}
  {state : State}

/-- One token after a whole term. -/
theorem closes_cons : Closes frames t (token :: tokens) whole ↔
    ∃ next, stepEnded t frames token = .ok next ∧ next.Completes tokens whole := by
  cases frames with
  | nil => simp [Closes, stepEnded]
  | cons f frames =>
      constructor
      · rintro ⟨more, args, rest, heq, hmore, hcloses⟩
        cases hmore with
        | nil =>
            cases heq
            exact ⟨_, rfl, hcloses⟩
        | cons hphrase hmore =>
            cases heq
            refine ⟨_, rfl, .inl ⟨_, _, _, List.append_assoc _ _ _, hphrase, ?_⟩⟩
            refine ⟨_, _, _, rfl, hmore, ?_⟩
            simpa using hcloses
      · rintro ⟨next, hstep, hnext⟩
        cases token with
        | lparen | word => cases hstep
        | rparen =>
            cases hstep
            exact ⟨[], [], tokens, rfl, .nil, hnext⟩
        | comma =>
            cases hstep
            obtain ⟨phrase, rest, u, rfl, hphrase, more, args, rest, rfl, hmore, hcloses⟩ |
              ⟨name, outer, rest, hframes, -⟩ := hnext
            · refine ⟨_, _, rest, ?_, .cons hphrase hmore, ?_⟩
              · simp
              · simpa using hcloses
            · cases hframes

/-- A phrase is opened by its name. -/
theorem opens_word {name : List Char} : Opens frames (.word name :: tokens) whole ↔
    Identifier name ∧ (State.named name frames).Completes tokens whole := by
  constructor
  · rintro (⟨phrase, rest, t, heq, hphrase, hcloses⟩ | ⟨name, outer, rest, -, heq, -⟩)
    · cases hphrase with
      | var h hc | const h hc =>
          cases heq
          refine ⟨h, .inl ?_⟩
          simpa [leaf, hc] using hcloses
      | nullary h =>
          cases heq
          exact ⟨h, .inr ⟨_, rfl, .inr ⟨_, _, _, rfl, rfl, hcloses⟩⟩⟩
      | @compound _ first args tokens more h hfirst hmore =>
          cases heq
          refine ⟨h, .inr ⟨_, rfl, .inl ⟨tokens, more ++ .rparen :: rest, first, ?_, hfirst, ?_⟩⟩⟩
          · simp
          · exact ⟨more, args, rest, rfl, hmore, hcloses⟩
    · cases heq
  · rintro ⟨h, hcloses | ⟨rest, rfl, hopens⟩⟩
    · exact .inl ⟨[.word name], tokens, leaf name, rfl, h.leaf, hcloses⟩
    · obtain ⟨phrase, rest, t, rfl, hphrase, more, args, rest, rfl, hmore, hcloses⟩ |
        ⟨name', outer, rest, hframes, rfl, hcloses⟩ := hopens
      · refine .inl ⟨_, rest, _, ?_, .compound h hphrase hmore, hcloses⟩
        simp
      · cases hframes
        exact .inl ⟨_, rest, _, rfl, .nullary h, hcloses⟩

theorem opens_rparen : Opens frames (.rparen :: tokens) whole ↔ ∃ name outer,
    frames = ⟨name, []⟩ :: outer ∧ Closes outer (.app (String.ofList name) []) tokens whole := by
  constructor
  · rintro (⟨phrase, rest, t, heq, hphrase, -⟩ | ⟨name, outer, rest, rfl, heq, hcloses⟩)
    · cases hphrase <;> cases heq
    · cases heq
      exact ⟨name, outer, rfl, hcloses⟩
  · rintro ⟨name, outer, rfl, hcloses⟩
    exact .inr ⟨name, outer, tokens, rfl, rfl, hcloses⟩

theorem not_opens_mark (h : token = .lparen ∨ token = .comma) :
    ¬ Opens frames (token :: tokens) whole := by
  rintro (⟨phrase, rest, t, heq, hphrase, -⟩ | ⟨name, outer, rest, -, heq, -⟩)
  · obtain rfl | rfl := h <;> cases hphrase <;> cases heq
  · obtain rfl | rfl := h <;> cases heq

/-- One token, whatever the state. -/
theorem completes_cons : state.Completes (token :: tokens) whole ↔
    ∃ next, step state token = .ok next ∧ next.Completes tokens whole := by
  cases state with
  | ended t frames => exact closes_cons
  | named name frames =>
      cases token with
      | lparen =>
          have hcloses : ¬ Closes frames (leaf name) (.lparen :: tokens) whole := by
            rw [closes_cons]
            cases frames <;> simp [stepEnded]
          simp [State.Completes, step, hcloses]
      | rparen | comma | word => simp [State.Completes, step, closes_cons]
  | start frames =>
      cases token with
      | word name =>
          simp only [State.Completes, opens_word, step, ← isIdentifier_iff]
          split <;> simp [*]
      | lparen | comma => simp [State.Completes, step, not_opens_mark]
      | rparen =>
          simp only [State.Completes, opens_rparen]
          cases frames with
          | nil => simp [step]
          | cons f outer =>
              obtain ⟨name, args⟩ := f
              cases args <;> simp [step]

theorem completes_nil : state.Completes [] whole ↔ finish state = .ok whole := by
  cases state with
  | start frames =>
      have hphrase : ∀ t, ¬ Phrase [] t := fun t h => by cases h
      simp [State.Completes, Opens, finish, hphrase]
  | named name frames => cases frames <;> simp [State.Completes, Closes, finish]
  | ended t frames => cases frames <;> simp [State.Completes, Closes, finish]

theorem run_eq_ok {ls : List Lexeme} :
    run state ls = .ok t ↔ state.Completes (ls.map Lexeme.token) t := by
  induction ls generalizing state with
  | nil =>
      rw [run, List.map_nil, completes_nil]
      cases finish state <;> simp [Except.mapError]
  | cons l ls ih =>
      rw [run, List.map_cons, completes_cons]
      cases step state l.token <;> simp [ih]

/-- The tokens from the refused one on are the last ones. -/
theorem run_eq_error {ls : List Lexeme} {fault : Fault} (h : run state ls = .error fault) :
    fault.rest <:+ ls := by
  induction ls generalizing state with
  | nil =>
      rw [run] at h
      cases hfinish : finish state with
      | ok t =>
          rw [hfinish] at h
          cases h
      | error refusal =>
          rw [hfinish] at h
          cases h
          exact List.suffix_rfl
  | cons l ls ih =>
      rw [run] at h
      split at h
      · exact (ih h).trans (List.suffix_cons l ls)
      · cases h
        exact List.suffix_rfl

theorem completes_start_nil {tokens : List Token} :
    (State.start []).Completes tokens t ↔ Phrase tokens t := by
  simp [State.Completes, Opens, Closes]

end Machine

theorem byteLength_eq (cs : List Char) : Text.byteLength cs = (String.ofList cs).utf8ByteSize := by
  induction cs with
  | nil => rfl
  | cons c cs ih => simp [Text.byteLength, ih]

theorem term_eq_ok {input : List Char} {t : Term} :
    term input = .ok t ↔ ∃ tokens, Spelled input tokens ∧ Phrase tokens t := by
  have hrun : term input = .ok t ↔ run (.start []) (lexemes 0 input) = .ok t := by
    rw [term]
    cases run (.start []) (lexemes 0 input) <;> simp [Except.mapError]
  rw [hrun, run_eq_ok, completes_start_nil]
  simp [spelled_iff 0]

/-- Reading ends with a term, with a word that is no identifier, or with a place in the
text. -/
theorem term_cases (input : List Char) :
    (∃ t, term input = .ok t) ∨ (∃ name, term input = .error (.invalidIdentifier name)) ∨
      ∃ offset reason, offset ≤ (String.ofList input).utf8ByteSize ∧
        term input = .error (.unreadable (String.ofList input) offset reason) := by
  cases hrun : run (.start []) (lexemes 0 input) with
  | ok t => exact .inl ⟨t, by rw [term, hrun]; rfl⟩
  | error fault =>
      have hterm : term input = .error (fault.toError input) := by rw [term, hrun]; rfl
      rw [hterm]
      obtain ⟨refusal, rest⟩ := fault
      cases refusal with
      | notIdentifier word => exact .inr (.inl ⟨_, rfl⟩)
      | unexpected reason =>
          refine .inr (.inr ⟨_, reason, ?_, rfl⟩)
          rw [← byteLength_eq]
          cases rest with
          | nil => exact Nat.le_refl _
          | cons l rest =>
              have hmem : l ∈ lexemes 0 input := (run_eq_error hrun).mem (.head _)
              simpa using (offset_of_mem_lexemes hmem).2

/-- The reader returns a term exactly if the text spells the phrase of that term. It always
ends, and an error about the text names a place from its start to its end. -/
theorem term_reads_phrases (input : List Char) :
    (∀ t, term input = .ok t ↔ ∃ tokens, Spelled input tokens ∧ Phrase tokens t) ∧
    ((∃ t, term input = .ok t) ∨ (∃ name, term input = .error (.invalidIdentifier name)) ∨
      ∃ offset reason, offset ≤ (String.ofList input).utf8ByteSize ∧
        term input = .error (.unreadable (String.ofList input) offset reason)) :=
  ⟨fun _ => term_eq_ok, term_cases input⟩

example : term "Knows( x ,Friend(),-5)".toList =
    .ok (.app "Knows" [.var "x", .app "Friend" [], .const "-5"]) := by rfl

end Defeasible.Parse
