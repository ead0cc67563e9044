import Curator.Predicate.Eval
import Curator.Proofs.Predicate.Completeness
import Curator.Proofs.Predicate.Tiling

/-! # Quoting

Every text can be written between either mark, with a backslash before each backslash and each
mark in it. What is cut from the source is the text as written, and taking the backslashes away
again gives the text. So a predicate can name every member of an object.
-/

namespace Curator.Predicate

/-! ## Texts between marks -/

/-- A text as it is written between two marks. -/
def escape (mark : Quote) : List Char → List Char
  | [] => []
  | c :: cs =>
    if c = '\\' ∨ c = mark.char then '\\' :: c :: escape mark cs else c :: escape mark cs

def quote (mark : Quote) (s : String) : String :=
  String.ofList (mark.char :: (escape mark s.toList ++ [mark.char]))

variable {mark : Quote} {cs rest : List Char} {c : Char} {source : String} {start : Nat}

/-- A backslash before a mark or a backslash is no line feed and none of the other characters that
an escape stands for. -/
theorem not_control (h : c = '\\' ∨ c = mark.char) : c ≠ '\n' ∧ c ≠ 'n' ∧ c ≠ 't' ∧ c ≠ 'r' := by
  rcases h with rfl | rfl
  · decide
  · cases mark <;> decide

theorem quotedBody_escape (mark : Quote) (cs : List Char) : QuotedBody mark (escape mark cs) := by
  induction cs with
  | nil => exact .nil
  | cons c cs ih =>
      rw [escape]
      split
      · next h => exact .escaped (not_control h).1 ih
      · next h =>
          obtain ⟨hslash, hmark⟩ := not_or.mp h
          exact .plain hmark hslash ih

theorem unescape_cons (h : c ≠ '\\') (cs : List Char) : unescape (c :: cs) = c :: unescape cs := by
  rw [unescape.eq_2 _ _ fun _ _ heq => absurd heq h]

theorem unescape_escape (mark : Quote) (cs : List Char) : unescape (escape mark cs) = cs := by
  induction cs with
  | nil => rfl
  | cons c cs ih =>
      rw [escape]
      split
      · next h =>
          obtain ⟨-, hn, ht, hr⟩ := not_control h
          rw [unescape, if_neg hn, if_neg ht, if_neg hr, ih]
      · next h => rw [unescape_cons (not_or.mp h).1, ih]

def quotedToken (mark : Quote) (s : String) : Token :=
  .quoted mark (String.ofList (escape mark s.toList))

theorem spelled_quotedToken (mark : Quote) (s : String) :
    (quotedToken mark s).spelled = (quote mark s).toList := by
  simp [quotedToken, Token.spelled, quote]

/-- The written text ends at its second mark, whatever follows. -/
theorem longest_quotedToken (mark : Quote) (s : String) (rest : List Char) :
    Longest ((quotedToken mark s).spelled ++ rest) (quotedToken mark s).spelled
      (quotedToken mark s) := by
  have hbody := quotedBody?_append (quotedBody_escape mark s.toList) rest
  have hlongest := longest_quoted hbody
  simpa [quotedToken, Token.spelled] using hlongest

/-! ## Sources with a written text -/

theorem longest_model (rest : List Char) :
    Longest ((Token.ident "model").spelled ++ '[' :: rest) (Token.ident "model").spelled
      (.ident "model") :=
  @longest_word ("odel".toList ++ '[' :: rest) 'm' (by decide)

theorem longest_openBracket (rest : List Char) :
    Longest ((Token.symbol .openBracket).spelled ++ rest) (Token.symbol .openBracket).spelled
      (.symbol .openBracket) :=
  @longest_symbol rest '[' .openBracket (by decide) rfl

theorem longest_closeBracket (rest : List Char) :
    Longest ((Token.symbol .closeBracket).spelled ++ rest) (Token.symbol .closeBracket).spelled
      (.symbol .closeBracket) :=
  @longest_symbol rest ']' .closeBracket (by decide) rfl

theorem exists_tokenize_quote (mark : Quote) (s : String) :
    ∃ tokens, tokenize (quote mark s) = .ok tokens ∧
      tokens.map Located.token = [quotedToken mark s] := by
  have hcut := @Cut.token 0 _ _ _ _ _ (longest_quotedToken mark s []) .done
  rw [List.append_nil, spelled_quotedToken] at hcut
  exact ⟨_, tokenize_of_cut hcut, rfl⟩

def lookup (mark : Quote) (s : String) : String := "model[" ++ quote mark s ++ "]"

theorem exists_tokenize_lookup (mark : Quote) (s : String) :
    ∃ tokens, tokenize (lookup mark s) = .ok tokens ∧
      tokens.map Located.token =
        [.ident "model", .symbol .openBracket, quotedToken mark s, .symbol .closeBracket] := by
  have hcut := @Cut.token 0 _ _ _ _ _ (longest_model _) (.token (longest_openBracket _)
    (.token (longest_quotedToken mark s _) (.token (longest_closeBracket []) .done)))
  have hsource : (lookup mark s).toList =
      (Token.ident "model").spelled ++ ((Token.symbol .openBracket).spelled ++
        ((quotedToken mark s).spelled ++ ((Token.symbol .closeBracket).spelled ++ []))) := by
    rw [lookup, String.toList_append, String.toList_append, spelled_quotedToken, List.append_nil,
      List.append_assoc]
    rfl
  exact ⟨_, tokenize_of_cut (hsource ▸ hcut), rfl⟩

/-! ## Reading them -/

open Grammar in
theorem derives_of_suffixed {levels : Nat} {ts : List Token} {e : Expr}
    (h : Derives .suffixed levels ts e) : Derives (.tier .or) (levels + 1) ts e :=
  .operand (.operand (.operand (.operand (.plain h))))

open Grammar in
theorem derives_quotedToken (levels : Nat) (mark : Quote) (s : String) :
    Derives .primary levels [quotedToken mark s] (.literal (.string s)) := by
  have hderives := @Derives.quoted levels mark (String.ofList (escape mark s.toList))
  rwa [String.toList_ofList, unescape_escape, String.ofList_toList] at hderives

/-- A source of some tokens that derive an expression with suffixes is read as it. -/
theorem parse_of_suffixed {tokens : List Located} {e : Expr} (h : tokenize source = .ok tokens)
    (hlength : tokens.length ≤ maxTokens)
    (hderives : Grammar.Derives .suffixed (maxNesting - 1) (tokens.map Located.token) e) :
    parse source = .ok ⟨source, e⟩ :=
  parse_of_program h hlength
    ⟨[], _, [], by simp, .inl rfl, .inl rfl, derives_of_suffixed hderives⟩

theorem parse_lookup (mark : Quote) (s : String) :
    parse (lookup mark s) = .ok ⟨lookup mark s, .subscript .model (.literal (.string s))⟩ := by
  obtain ⟨tokens, htokens, hmap⟩ := exists_tokenize_lookup mark s
  have hlength : tokens.length = 4 := by rw [← List.length_map (f := Located.token), hmap]; rfl
  refine parse_of_suffixed htokens (by rw [hlength]; decide) ?_
  rw [hmap]
  exact .subscript (.primary .model) (derives_of_suffixed (.primary (derives_quotedToken _ mark s)))

/-- Every text can be quoted with either mark: the quoted text is read as just this literal, and as
a subscript of the model it looks up just this name in an object. -/
theorem quote_denotes (mark : Quote) (s : String) :
    parse (quote mark s) = .ok ⟨quote mark s, .literal (.string s)⟩ ∧
      ∃ p, parse ("model[" ++ quote mark s ++ "]") = .ok p ∧
        ∀ (members : List (String × Json)) (index : Option Nat),
          eval (.object members) index p.expr = .ok ((Members.get? s members).getD .null) ∧
          evaluate ("model[" ++ quote mark s ++ "]") (.object members) index =
            .ok ((Members.get? s members).getD .null).truthy := by
  obtain ⟨tokens, htokens, hmap⟩ := exists_tokenize_quote mark s
  have hlength : tokens.length = 1 := by rw [← List.length_map (f := Located.token), hmap]; rfl
  constructor
  · refine parse_of_suffixed htokens (by rw [hlength]; decide) ?_
    rw [hmap]
    exact .primary (derives_quotedToken _ mark s)
  · refine ⟨_, parse_lookup mark s, fun members index => ⟨rfl, ?_⟩⟩
    rw [evaluate, ← lookup, parse_lookup]
    rfl

/-- The backslash and the mark have a backslash before them, and the line feed has none. -/
example : quote .single "a\\'\n" = "'a\\\\\\'\n'" := by decide

end Curator.Predicate
