import Mathlib.Data.List.Nodup
import Mathlib.Data.List.TakeWhile
import Curator.Predicate.Token

/-! # Lexemes

The texts that can be a token, for every class of tokens, said without the lexer. The lexer takes
the longest lexeme that a text begins with, and a word that spells a keyword as the keyword. This
decides on the token: the first character tells the family, and within a family no two lexemes of
one length differ.
-/

namespace Curator.Predicate

/-! ## Classes of tokens -/

/-- What may stand between two marks: characters other than the mark and the backslash, and
backslashes that each have a character with them, which is not a line feed. -/
inductive QuotedBody (mark : Quote) : List Char → Prop where
  | nil : QuotedBody mark []
  | plain {c : Char} {cs : List Char} (hmark : c ≠ mark.char) (hslash : c ≠ '\\')
      (h : QuotedBody mark cs) : QuotedBody mark (c :: cs)
  | escaped {c : Char} {cs : List Char} (hline : c ≠ '\n') (h : QuotedBody mark cs) :
      QuotedBody mark ('\\' :: c :: cs)

/-- The text is one that the token can be cut from. -/
inductive Lexeme : List Char → Token → Prop where
  | keyword (k : Keyword) : Lexeme k.spelling.toList (.keyword k)
  | ident {c : Char} {cs : List Char} (hc : isWordStart c) (hcs : ∀ d ∈ cs, isWordPart d) :
      Lexeme (c :: cs) (.ident (String.ofList (c :: cs)))
  | whole {ds : List Char} (hne : ds ≠ []) (hds : ∀ d ∈ ds, d.isDigit) :
      Lexeme ds (.number (String.ofList ds))
  | fraction {ds es : List Char} (hne : ds ≠ []) (hds : ∀ d ∈ ds, d.isDigit) (hne' : es ≠ [])
      (hes : ∀ e ∈ es, e.isDigit) :
      Lexeme (ds ++ '.' :: es) (.number (String.ofList (ds ++ '.' :: es)))
  | quoted {mark : Quote} {body : List Char} (h : QuotedBody mark body) :
      Lexeme (mark.char :: (body ++ [mark.char])) (.quoted mark (String.ofList body))
  | symbol (s : Symbol) : Lexeme s.spelling.toList (.symbol s)

/-- The text that a token is cut from. -/
def Token.spelled : Token → List Char
  | .keyword k => k.spelling.toList
  | .ident name => name.toList
  | .number digits => digits.toList
  | .quoted mark raw => mark.char :: (raw.toList ++ [mark.char])
  | .symbol s => s.spelling.toList

/-- The token is cut from the longest lexeme that the text begins with, and it is the keyword if
that lexeme spells one. -/
structure Longest (text lexeme : List Char) (token : Token) : Prop where
  begins : lexeme <+: text
  matched : Lexeme lexeme token
  longest : ∀ other t, other <+: text → Lexeme other t → other.length ≤ lexeme.length
  keyword : ∀ k, Lexeme lexeme (.keyword k) → token = .keyword k

variable {text lexeme other body cs ds : List Char} {token t : Token} {mark : Quote} {c : Char}

theorem Lexeme.eq_spelled (h : Lexeme lexeme token) : lexeme = token.spelled := by
  cases h <;> simp [Token.spelled]

/-! ## Families of tokens -/

/-- The tokens that can be told apart by the first character. -/
inductive Family where
  | word | number | quoted | symbol
deriving DecidableEq

def Family.ofChar (c : Char) : Family :=
  if isWordStart c then .word
  else if c.isDigit then .number
  else if (Quote.ofChar? c).isSome then .quoted
  else .symbol

def Token.family : Token → Family
  | .keyword _ => .word
  | .ident _ => .word
  | .number _ => .number
  | .quoted _ _ => .quoted
  | .symbol _ => .symbol

theorem isWordStart_of_isDigit (h : c.isDigit) : isWordStart c = false := by
  have hcode : 48 ≤ c.toNat ∧ c.toNat ≤ 57 := by
    simpa [Char.isDigit, UInt32.le_iff_toNat_le, ← Char.toNat_val] using h
  have hunderscore : c ≠ '_' := fun heq => absurd (heq ▸ h) (by decide)
  have hdollar : c ≠ '$' := fun heq => absurd (heq ▸ h) (by decide)
  delta isWordStart Char.isAlpha Char.isUpper Char.isLower
  simp [UInt32.le_iff_toNat_le, hunderscore, hdollar]
  omega

theorem Family.ofChar_of_isDigit (h : c.isDigit) : ofChar c = .number := by
  simp [ofChar, isWordStart_of_isDigit h, h]

theorem Family.ofChar_mark (mark : Quote) : ofChar mark.char = .quoted := by
  cases mark <;> decide

theorem Lexeme.exists_head (h : Lexeme lexeme token) :
    ∃ c cs, lexeme = c :: cs ∧ Family.ofChar c = token.family := by
  cases h with
  | keyword k => cases k <;> exact ⟨_, _, rfl, by decide⟩
  | ident hc hcs => exact ⟨_, _, rfl, if_pos hc⟩
  | whole hne hds =>
      obtain ⟨d, ds, rfl⟩ := List.exists_cons_of_ne_nil hne
      exact ⟨d, ds, rfl, Family.ofChar_of_isDigit (hds d (by simp))⟩
  | fraction hne hds hne' hes =>
      obtain ⟨d, ds, rfl⟩ := List.exists_cons_of_ne_nil hne
      exact ⟨d, _, rfl, Family.ofChar_of_isDigit (hds d (by simp))⟩
  | quoted h => exact ⟨_, _, rfl, Family.ofChar_mark _⟩
  | symbol s => cases s <;> exact ⟨_, _, rfl, by decide⟩

theorem Lexeme.ne_nil (h : Lexeme lexeme token) : lexeme ≠ [] := by
  obtain ⟨c, cs, rfl, -⟩ := h.exists_head
  exact List.cons_ne_nil _ _

/-- The first character of a text tells the family of all lexemes that it begins with. -/
theorem Lexeme.family_eq (h : Lexeme lexeme token) (hp : lexeme <+: c :: cs) :
    token.family = Family.ofChar c := by
  obtain ⟨d, ds, rfl, hd⟩ := h.exists_head
  rw [← hd, (List.cons_prefix_cons.mp hp).1]

/-! ## Words -/

theorem length_le_takeWhile {p : Char → Bool} (hp : lexeme <+: text) (h : ∀ c ∈ lexeme, p c) :
    lexeme.length ≤ (text.takeWhile p).length := by
  obtain ⟨rest, rfl⟩ := hp
  rw [List.takeWhile_append_of_pos h, List.length_append]
  exact Nat.le_add_right _ _

theorem Lexeme.isWordPart (h : Lexeme lexeme token) (hword : token.family = .word) :
    ∀ c ∈ lexeme, isWordPart c := by
  cases h with
  | keyword k =>
      have hall : k.spelling.toList.all Predicate.isWordPart = true := by cases k <;> rfl
      exact List.all_eq_true.mp hall
  | ident hc hcs =>
      intro d hd
      rcases List.mem_cons.mp hd with rfl | hd
      · simp [Predicate.isWordPart, hc]
      · exact hcs d hd
  | _ => cases hword

theorem ofWord_spelling (k : Keyword) : Token.ofWord k.spelling = .keyword k := by
  cases k <;> decide

theorem lexeme_ofWord (hc : isWordStart c) (hcs : ∀ d ∈ cs, isWordPart d) :
    Lexeme (c :: cs) (Token.ofWord (String.ofList (c :: cs))) := by
  unfold Token.ofWord
  split
  · next k hk =>
      have hspelling : k.spelling = String.ofList (c :: cs) := by simpa using List.find?_some hk
      have hlexeme := Lexeme.keyword k
      rwa [hspelling, String.toList_ofList] at hlexeme
  · exact .ident hc hcs

theorem longest_word (hc : isWordStart c) :
    Longest (c :: cs) ((c :: cs).takeWhile isWordPart)
      (Token.ofWord (String.ofList ((c :: cs).takeWhile isWordPart))) where
  begins := List.takeWhile_prefix _
  matched := by
    rw [List.takeWhile_cons_of_pos (by simp [isWordPart, hc])]
    exact lexeme_ofWord hc fun _ => List.mem_takeWhile_imp
  longest := by
    intro other t hother ht
    have hfamily : t.family = .word := (ht.family_eq hother).trans (if_pos hc)
    exact length_le_takeWhile hother (ht.isWordPart hfamily)
  keyword := by
    intro k hk
    rw [hk.eq_spelled, Token.spelled, String.ofList_toList, ofWord_spelling]

/-! ## Numerals -/

theorem length_takeWhile_le_numeralLength (text : List Char) :
    (text.takeWhile Char.isDigit).length ≤ numeralLength text := by
  unfold numeralLength
  simp only
  split
  · split <;> omega
  · exact Nat.le_refl _

theorem takeWhile_isDigit_fraction (hds : ∀ d ∈ ds, d.isDigit) (cs : List Char) :
    (ds ++ '.' :: cs).takeWhile Char.isDigit = ds := by
  rw [List.takeWhile_append_of_pos hds, List.takeWhile_cons_of_neg (by decide), List.append_nil]

theorem numeralLength_fraction (hds : ∀ d ∈ ds, d.isDigit) (cs : List Char) :
    numeralLength (ds ++ '.' :: cs) =
      if (cs.takeWhile Char.isDigit).length = 0 then ds.length
      else ds.length + 1 + (cs.takeWhile Char.isDigit).length := by
  simp only [numeralLength, takeWhile_isDigit_fraction hds, List.drop_left]

theorem Lexeme.length_le_numeralLength (h : Lexeme lexeme token) (hnumber : token.family = .number)
    (hp : lexeme <+: text) : lexeme.length ≤ numeralLength text := by
  cases h with
  | whole hne hds =>
      exact (length_le_takeWhile hp hds).trans (length_takeWhile_le_numeralLength text)
  | @fraction ds es hne hds hne' hes =>
      obtain ⟨rest, rfl⟩ := hp
      have hpos : 0 < es.length := List.length_pos_iff.mpr hne'
      rw [List.append_assoc, List.cons_append, numeralLength_fraction hds,
        List.takeWhile_append_of_pos hes]
      simp only [List.length_append, List.length_cons]
      split <;> omega
  | _ => cases hnumber

/-- A numeral is the digits at the front, or these and a point with digits after it. -/
theorem take_numeralLength_cases (text : List Char) :
    text.take (numeralLength text) = text.takeWhile Char.isDigit ∨
      ∃ es, es ≠ [] ∧ (∀ e ∈ es, e.isDigit) ∧
        text.take (numeralLength text) = text.takeWhile Char.isDigit ++ '.' :: es := by
  have hparts := @List.takeWhile_append_dropWhile _ Char.isDigit text
  simp only [numeralLength]
  generalize text.takeWhile Char.isDigit = ds at hparts ⊢
  generalize text.dropWhile Char.isDigit = after at hparts
  rw [← hparts, List.drop_left]
  split
  · next rest =>
      by_cases hes : rest.takeWhile Char.isDigit = []
      · exact .inl (by simp [hes])
      · refine .inr ⟨_, hes, fun _ => List.mem_takeWhile_imp, ?_⟩
        have htake := List.prefix_iff_eq_take.mp (List.takeWhile_prefix Char.isDigit (l := rest))
        rw [if_neg (by simpa using hes), Nat.add_assoc, List.take_length_add_append,
          Nat.add_comm 1, List.take_succ_cons, ← htake]
  · exact .inl List.take_left

theorem numeralLength_le (text : List Char) : numeralLength text ≤ text.length := by
  have hparts := @List.takeWhile_append_dropWhile _ Char.isDigit text
  simp only [numeralLength]
  generalize text.takeWhile Char.isDigit = ds at hparts ⊢
  generalize text.dropWhile Char.isDigit = after at hparts
  rw [← hparts, List.drop_left, List.length_append]
  split
  · next rest =>
      have hle := (List.takeWhile_prefix Char.isDigit (l := rest)).length_le
      rw [List.length_cons]
      split <;> omega
  · omega

theorem lexeme_take_numeralLength (hc : c.isDigit) (cs : List Char) :
    Lexeme ((c :: cs).take (numeralLength (c :: cs)))
      (.number (String.ofList ((c :: cs).take (numeralLength (c :: cs))))) := by
  have hne : (c :: cs).takeWhile Char.isDigit ≠ [] := by simp [hc]
  have hds : ∀ d ∈ (c :: cs).takeWhile Char.isDigit, d.isDigit := fun _ => List.mem_takeWhile_imp
  rcases take_numeralLength_cases (c :: cs) with heq | ⟨es, hne', hes, heq⟩
  · rw [heq]
    exact .whole hne hds
  · rw [heq]
    exact .fraction hne hds hne' hes

theorem longest_number (hc : c.isDigit) (cs : List Char) :
    Longest (c :: cs) ((c :: cs).take (numeralLength (c :: cs)))
      (.number (String.ofList ((c :: cs).take (numeralLength (c :: cs))))) where
  begins := List.take_prefix _ _
  matched := lexeme_take_numeralLength hc cs
  longest := by
    intro other t hother ht
    have hfamily : t.family = .number := (ht.family_eq hother).trans (Family.ofChar_of_isDigit hc)
    have hle := ht.length_le_numeralLength hfamily hother
    rw [List.length_take]
    exact Nat.le_min.mpr ⟨hle, hother.length_le⟩
  keyword := by
    intro k hk
    have hfamily := hk.family_eq (List.take_prefix _ _)
    rw [Family.ofChar_of_isDigit hc] at hfamily
    cases hfamily

/-! ## Quoted texts -/

theorem Quote.char_ne_backslash (mark : Quote) : mark.char ≠ '\\' := by
  cases mark <;> decide

theorem quotedBody?_cons (hslash : c ≠ '\\') (cs : List Char) :
    quotedBody? mark (c :: cs) =
      if c = mark.char then some [] else (quotedBody? mark cs).map (c :: ·) := by
  rw [quotedBody?.eq_3 _ _ _ fun _ _ heq _ => hslash heq, if_neg hslash]

theorem quotedBody?_append (h : QuotedBody mark body) (rest : List Char) :
    quotedBody? mark (body ++ mark.char :: rest) = some body := by
  induction h with
  | nil => rw [List.nil_append, quotedBody?_cons mark.char_ne_backslash, if_pos rfl]
  | plain hmark hslash _ ih =>
      rw [List.cons_append, quotedBody?_cons hslash, if_neg hmark, ih, Option.map_some]
  | escaped hline _ ih =>
      rw [List.cons_append, List.cons_append, quotedBody?, if_neg hline, ih, Option.map_some]

theorem quotedBody_of_quotedBody? (h : quotedBody? mark cs = some body) :
    QuotedBody mark body ∧ ∃ rest, cs = body ++ mark.char :: rest := by
  fun_induction quotedBody? mark cs generalizing body with
  | case1 => cases h
  | case2 => cases h
  | case3 c rest hline ih =>
      obtain ⟨inner, hinner, rfl⟩ := Option.map_eq_some_iff.mp h
      obtain ⟨hbody, after, rfl⟩ := ih hinner
      exact ⟨.escaped hline hbody, after, rfl⟩
  | case4 rest =>
      cases h
      exact ⟨.nil, rest, rfl⟩
  | case5 => cases h
  | case6 c rest _ hmark hslash ih =>
      obtain ⟨inner, hinner, rfl⟩ := Option.map_eq_some_iff.mp h
      obtain ⟨hbody, after, rfl⟩ := ih hinner
      exact ⟨.plain hmark hslash hbody, after, rfl⟩

theorem Quote.char_injective {mark other : Quote} (h : mark.char = other.char) : mark = other := by
  revert h
  cases mark <;> cases other <;> decide

/-- A quoted text at the front of a text is cut off by the reader: no other mark closes it. -/
theorem Lexeme.quotedBody?_eq (h : Lexeme lexeme token) (hp : lexeme <+: mark.char :: cs) :
    ∃ body, quotedBody? mark cs = some body ∧ lexeme = mark.char :: (body ++ [mark.char]) ∧
      token = .quoted mark (String.ofList body) := by
  have hfamily := (h.family_eq hp).trans (Family.ofChar_mark mark)
  cases h with
  | @quoted other body h =>
      obtain ⟨hmark, hrest⟩ := List.cons_prefix_cons.mp hp
      obtain rfl := Quote.char_injective hmark
      obtain ⟨rest, rfl⟩ := hrest
      refine ⟨body, ?_, rfl, rfl⟩
      rw [List.append_assoc, List.singleton_append, quotedBody?_append h]
  | _ => cases hfamily

theorem longest_quoted (h : quotedBody? mark cs = some body) :
    Longest (mark.char :: cs) (mark.char :: (body ++ [mark.char]))
      (.quoted mark (String.ofList body)) where
  begins := by
    obtain ⟨-, rest, rfl⟩ := quotedBody_of_quotedBody? h
    exact ⟨rest, by simp⟩
  matched := .quoted (quotedBody_of_quotedBody? h).1
  longest := by
    intro other t hother ht
    obtain ⟨inner, hinner, rfl, -⟩ := ht.quotedBody?_eq hother
    cases h.symm.trans hinner
    exact Nat.le_refl _
  keyword := by
    intro k hk
    obtain ⟨inner, -, -, htoken⟩ := hk.quotedBody?_eq (List.prefix_refl _)
    cases htoken

/-! ## Symbols -/

theorem Symbol.mem_all (s : Symbol) : s ∈ all := by
  cases s <;> decide

theorem Symbol.pairwise_all :
    all.Pairwise fun s u => u.spelling.toList.length ≤ s.spelling.toList.length := by
  decide

theorem Lexeme.exists_symbol (h : Lexeme lexeme token) (hsymbol : token.family = .symbol) :
    ∃ s, token = .symbol s ∧ lexeme = s.spelling.toList := by
  cases h with
  | symbol s => exact ⟨s, rfl, rfl⟩
  | _ => cases hsymbol

theorem longest_symbol {s : Symbol} (hc : Family.ofChar c = .symbol)
    (h : Symbol.all.find? (fun s => s.spelling.toList.isPrefixOf (c :: cs)) = some s) :
    Longest (c :: cs) s.spelling.toList (.symbol s) := by
  obtain ⟨hs, front, back, hall, hfront⟩ := List.find?_eq_some_iff_append.mp h
  have hbegins : s.spelling.toList <+: c :: cs := List.isPrefixOf_iff_prefix.mp hs
  have hordered := Symbol.pairwise_all
  rw [hall] at hordered
  refine ⟨hbegins, .symbol s, ?_, ?_⟩
  · intro other t hother ht
    obtain ⟨u, rfl, rfl⟩ := ht.exists_symbol ((ht.family_eq hother).trans hc)
    have hmem := u.mem_all
    rw [hall] at hmem
    rcases List.mem_append.mp hmem with hmem | hmem
    · -- the symbols before the one that was found do not begin the text
      have hnot := hfront u hmem
      rw [List.isPrefixOf_iff_prefix.mpr hother] at hnot
      cases hnot
    · rcases List.mem_cons.mp hmem with rfl | hmem
      · exact Nat.le_refl _
      · exact (List.pairwise_cons.mp (List.pairwise_append.mp hordered).2.1).1 u hmem
  · intro k hk
    have hfamily := (hk.family_eq hbegins).trans hc
    cases hfamily

/-! ## The next token -/

theorem Quote.ofChar?_eq_some (h : Quote.ofChar? c = some mark) : c = mark.char := by
  have hfound := List.find?_some h
  exact (eq_of_beq hfound).symm

/-- What is cut from the front of a text is the token of its longest lexeme. -/
theorem longest_of_first? {n : Nat} (h : Token.first? text = some (token, n)) :
    ∃ lexeme, n = lexeme.length ∧ Longest text lexeme token := by
  cases text with
  | nil => cases h
  | cons c cs =>
      simp only [Token.first?] at h
      split at h
      · next hc =>
          cases h
          exact ⟨_, rfl, longest_word hc⟩
      · next hword =>
          split at h
          · next hc =>
              cases h
              refine ⟨_, ?_, longest_number hc cs⟩
              rw [List.length_take, Nat.min_eq_left (numeralLength_le _)]
          · next hdigit =>
              split at h
              · next mark hmark =>
                  obtain ⟨body, hbody, heq⟩ := Option.map_eq_some_iff.mp h
                  cases heq
                  obtain rfl := Quote.ofChar?_eq_some hmark
                  exact ⟨_, by simp, longest_quoted hbody⟩
              · next hmark =>
                  obtain ⟨s, hs, heq⟩ := Option.map_eq_some_iff.mp h
                  cases heq
                  have hfamily : Family.ofChar c = .symbol := by
                    simp [Family.ofChar, hword, hdigit, hmark]
                  exact ⟨_, String.length_toList.symm, longest_symbol hfamily hs⟩

theorem not_lexeme_of_first? (h : Token.first? text = none) (hp : lexeme <+: text) :
    ¬ Lexeme lexeme token := by
  intro hlexeme
  cases text with
  | nil => exact hlexeme.ne_nil (List.prefix_nil.mp hp)
  | cons c cs =>
      simp only [Token.first?] at h
      split at h
      · cases h
      · next hword =>
          split at h
          · cases h
          · next hdigit =>
              split at h
              · next mark hmark =>
                  obtain rfl := Quote.ofChar?_eq_some hmark
                  obtain ⟨body, hbody, -⟩ := hlexeme.quotedBody?_eq hp
                  rw [hbody] at h
                  cases h
              · next hmark =>
                  have hfamily : Family.ofChar c = .symbol := by
                    simp [Family.ofChar, hword, hdigit, hmark]
                  obtain ⟨s, rfl, rfl⟩ := hlexeme.exists_symbol ((hlexeme.family_eq hp).trans hfamily)
                  have hnone := List.find?_eq_none.mp (Option.map_eq_none_iff.mp h) s s.mem_all
                  exact hnone (List.isPrefixOf_iff_prefix.mpr hp)

theorem Symbol.spelling_injective {s u : Symbol} (h : s.spelling = u.spelling) : s = u := by
  have hnodup : (all.map spelling).Nodup := by decide
  exact List.inj_on_of_nodup_map hnodup s.mem_all u.mem_all h

/-- Tokens of one family that are spelled alike are the same, but for keywords, which are names
as well. -/
theorem Token.eq_or_keyword (hfamily : token.family = t.family) (h : token.spelled = t.spelled) :
    token = t ∨ (∃ k, token = .keyword k) ∨ ∃ k, t = .keyword k := by
  cases token with
  | keyword k => exact .inr (.inl ⟨k, rfl⟩)
  | ident name =>
      cases t with
      | keyword k => exact .inr (.inr ⟨k, rfl⟩)
      | ident other => exact .inl (congrArg Token.ident (String.toList_inj.mp h))
      | _ => cases hfamily
  | number digits =>
      cases t with
      | number other => exact .inl (congrArg Token.number (String.toList_inj.mp h))
      | _ => cases hfamily
  | quoted mark raw =>
      cases t with
      | quoted other raw' =>
          obtain ⟨hmark, hrest⟩ := List.cons.inj h
          obtain rfl := Quote.char_injective hmark
          exact .inl (congrArg _ (String.toList_inj.mp (List.append_cancel_right hrest)))
      | _ => cases hfamily
  | symbol s =>
      cases t with
      | symbol u => exact .inl (congrArg _ (Symbol.spelling_injective (String.toList_inj.mp h)))
      | _ => cases hfamily

theorem Longest.unique (h : Longest text lexeme token) (h' : Longest text other t) :
    lexeme = other ∧ token = t := by
  have hle := h'.longest _ _ h.begins h.matched
  have hge := h.longest _ _ h'.begins h'.matched
  have hprefix := List.prefix_of_prefix_length_le h.begins h'.begins hle
  obtain rfl := hprefix.eq_of_length (Nat.le_antisymm hle hge)
  obtain ⟨c, cs, rfl, hc⟩ := h'.matched.exists_head
  have hfamily := (h.matched.family_eq (List.prefix_refl _)).trans hc
  have hspelled := h.matched.eq_spelled.symm.trans h'.matched.eq_spelled
  refine ⟨rfl, ?_⟩
  rcases Token.eq_or_keyword hfamily hspelled with heq | ⟨k, rfl⟩ | ⟨k, rfl⟩
  · exact heq
  · exact (h'.keyword k h.matched).symm
  · exact h.keyword k h'.matched

theorem Longest.first?_eq (h : Longest text lexeme token) :
    Token.first? text = some (token, lexeme.length) := by
  cases hfirst : Token.first? text with
  | none => exact absurd h.matched (not_lexeme_of_first? hfirst h.begins)
  | some found =>
      obtain ⟨t, n⟩ := found
      obtain ⟨other, rfl, hother⟩ := longest_of_first? hfirst
      obtain ⟨rfl, rfl⟩ := h.unique hother
      rfl

/-! ## Lexemes and blanks -/

theorem isSpace_cases (h : isSpace c = true) : c = ' ' ∨ c = '\t' ∨ c = '\r' ∨ c = '\n' := by
  simpa [isSpace, or_assoc] using h

theorem Family.ofChar_of_isSpace (h : isSpace c = true) : ofChar c = .symbol := by
  rcases isSpace_cases h with rfl | rfl | rfl | rfl <;> decide

theorem not_isWordPart_of_isSpace (h : isSpace c = true) : isWordPart c = false := by
  rcases isSpace_cases h with rfl | rfl | rfl | rfl <;> decide

theorem not_isDigit_of_isSpace (h : isSpace c = true) : c.isDigit = false ∧ c ≠ '.' := by
  rcases isSpace_cases h with rfl | rfl | rfl | rfl <;> decide

theorem Lexeme.isDigit_or_eq (h : Lexeme lexeme token) (hnumber : token.family = .number) :
    ∀ c ∈ lexeme, c.isDigit ∨ c = '.' := by
  intro c hc
  cases h with
  | whole hne hds => exact .inl (hds c hc)
  | fraction hne hds hne' hes =>
      rcases List.mem_append.mp hc with hc | hc
      · exact .inl (hds c hc)
      · rcases List.mem_cons.mp hc with rfl | hc
        · exact .inr rfl
        · exact .inl (hes c hc)
  | _ => cases hnumber

theorem Symbol.isSpace_eq_false (s : Symbol) : ∀ c ∈ s.spelling.toList, isSpace c = false := by
  have hall : s.spelling.toList.all (fun c => !isSpace c) = true := by cases s <;> rfl
  intro c hc
  simpa using List.all_eq_true.mp hall c hc

/-- No lexeme but a quoted text has a blank in it. -/
theorem Lexeme.isSpace_eq_false (h : Lexeme lexeme token) (hquoted : token.family ≠ .quoted)
    (hc : c ∈ lexeme) : isSpace c = false := by
  rw [Bool.eq_false_iff]
  intro hspace
  cases hfamily : token.family with
  | word =>
      have hword := h.isWordPart hfamily c hc
      rw [not_isWordPart_of_isSpace hspace] at hword
      cases hword
  | number =>
      obtain ⟨hdigit, hdot⟩ := not_isDigit_of_isSpace hspace
      simpa [hdigit, hdot] using h.isDigit_or_eq hfamily c hc
  | quoted => exact hquoted hfamily
  | symbol =>
      obtain ⟨s, -, rfl⟩ := h.exists_symbol hfamily
      simp [s.isSpace_eq_false c hc] at hspace

theorem Lexeme.isSpace_head (h : Lexeme (c :: cs) token) : isSpace c = false := by
  by_cases hquoted : token.family = .quoted
  · rw [Bool.eq_false_iff]
    intro hspace
    have hfamily := h.family_eq (List.prefix_refl _)
    rw [hquoted, Family.ofChar_of_isSpace hspace] at hfamily
    cases hfamily
  · exact h.isSpace_eq_false hquoted List.mem_cons_self

theorem Lexeme.exists_quoted (h : Lexeme lexeme token) (hquoted : token.family = .quoted) :
    ∃ mark body, QuotedBody mark body ∧ lexeme = mark.char :: (body ++ [mark.char]) := by
  cases h with
  | quoted h => exact ⟨_, _, h, rfl⟩
  | _ => cases hquoted

/-- What was cut as a token is cut again where a blank or nothing follows. -/
theorem Longest.before_blank (h : Longest text lexeme token) {rest : List Char}
    (hrest : ∀ c ∈ rest.head?, isSpace c = true) : Longest (lexeme ++ rest) lexeme token where
  begins := List.prefix_append _ _
  matched := h.matched
  keyword := h.keyword
  longest := by
    intro other t hother ht
    by_cases hquoted : t.family = .quoted
    · -- a quoted text ends at the mark that ends the lexeme
      obtain ⟨c, cs, hlexeme, hc⟩ := h.matched.exists_head
      rw [hlexeme] at hother
      have hfamily := hc.symm.trans ((ht.family_eq hother).symm.trans hquoted)
      obtain ⟨mark, body, hbody, hspelled⟩ := h.matched.exists_quoted hfamily
      have hread := quotedBody?_append hbody rest
      rw [← hlexeme, hspelled, List.cons_append, List.append_assoc] at hother
      obtain ⟨inner, hinner, rfl, -⟩ := ht.quotedBody?_eq hother
      cases hread.symm.trans hinner
      rw [hspelled]
    · -- a longer lexeme would have the blank in it
      by_contra hlonger
      have hshort := List.prefix_of_prefix_length_le (List.prefix_append lexeme rest) hother
        (Nat.le_of_not_le hlonger)
      obtain ⟨more, rfl⟩ := hshort
      cases more with
      | nil => exact hlonger (by simp)
      | cons c more =>
          obtain ⟨after, rfl⟩ := (List.prefix_append_right_inj lexeme).mp hother
          have hspace : isSpace c = true := hrest c rfl
          have hnot := ht.isSpace_eq_false hquoted (c := c) (by simp)
          rw [hspace] at hnot
          cases hnot

end Curator.Predicate
