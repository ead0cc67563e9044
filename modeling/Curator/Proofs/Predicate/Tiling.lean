import Curator.ByteOrder
import Curator.Proofs.Except
import Curator.Proofs.Predicate.Lexemes

/-! # Tokens tile a source

The lexer takes blanks and longest lexemes from the front of what is left, until nothing is left
or no lexeme begins it. A text that is cut in this way is cut by the lexer just so. From this
come the spans: they lie in order and apart on the boundaries of characters, with nothing but
blanks outside them.
-/

namespace Curator.Predicate

/-! ## Bytes of a text -/

def encoded (cs : List Char) : List UInt8 := cs.flatMap String.utf8EncodeChar

theorem length_encoded (cs : List Char) : (encoded cs).length = byteLength cs := by
  induction cs with
  | nil => rfl
  | cons c cs ih =>
      rw [encoded, List.flatMap_cons, List.length_append, String.length_utf8EncodeChar, byteLength,
        ← ih]
      rfl

theorem encoded_append (cs ds : List Char) : encoded (cs ++ ds) = encoded cs ++ encoded ds :=
  List.flatMap_append

theorem byteLength_append (cs ds : List Char) :
    byteLength (cs ++ ds) = byteLength cs + byteLength ds := by
  rw [← length_encoded, encoded_append, List.length_append, length_encoded, length_encoded]

theorem bytes_eq_encoded (source : String) : ByteOrder.bytes source = encoded source.toList := by
  rw [ByteOrder.bytes, String.toUTF8_eq_toByteArray, ← @String.ofList_toList source,
    String.toByteArray_ofList, List.utf8Encode, List.toList_data_toByteArray,
    String.toList_ofList, encoded]

theorem utf8ByteSize_eq_byteLength (source : String) :
    source.utf8ByteSize = byteLength source.toList := by
  rw [← length_encoded, ← bytes_eq_encoded]
  rfl

theorem byteLength_pos {cs : List Char} (h : cs ≠ []) : 0 < byteLength cs := by
  obtain ⟨c, cs, rfl⟩ := List.exists_cons_of_ne_nil h
  have hpos := c.utf8Size_pos
  rw [byteLength]
  omega

/-- The bytes of space, tab, carriage return and line feed. -/
def blankBytes : List UInt8 := [32, 9, 13, 10]

theorem exists_utf8EncodeChar_of_isSpace {c : Char} (h : isSpace c = true) :
    ∃ b ∈ blankBytes, String.utf8EncodeChar c = [b] := by
  rcases isSpace_cases h with rfl | rfl | rfl | rfl <;> exact ⟨_, by decide, rfl⟩

/-! ## How a text is cut -/

/-- The text, which starts at one byte, is cut into tokens and blanks up to another one, where the
rest is left. -/
inductive Cut : Nat → List Char → List Located → Nat → List Char → Prop where
  | done {start : Nat} {rest : List Char} : Cut start rest [] start rest
  | blank {start stop : Nat} {c : Char} {cs rest : List Char} {tokens : List Located}
      (hc : isSpace c = true) (h : Cut (start + c.utf8Size) cs tokens stop rest) :
      Cut start (c :: cs) tokens stop rest
  | token {start stop : Nat} {token : Token} {cs rest : List Char} {tokens : List Located}
      (hlongest : Longest (token.spelled ++ cs) token.spelled token)
      (h : Cut (start + byteLength token.spelled) cs tokens stop rest) :
      Cut start (token.spelled ++ cs)
        (⟨token, start, start + byteLength token.spelled⟩ :: tokens) stop rest

variable {start stop : Nat} {text rest : List Char} {tokens : List Located} {t : Located}

def Stuck (text : List Char) : Prop :=
  (∃ c cs, text = c :: cs ∧ isSpace c = false) ∧
    ∀ lexeme token, lexeme <+: text → ¬ Lexeme lexeme token

theorem Longest.exists_append {lexeme : List Char} {token : Token} (h : Longest text lexeme token) :
    lexeme = token.spelled ∧ ∃ cs, text = token.spelled ++ cs := by
  obtain ⟨cs, rfl⟩ := h.begins
  exact ⟨h.matched.eq_spelled, cs, by rw [← h.matched.eq_spelled]⟩

/-- What the lexer does: it cuts the whole text, or up to where it is stuck. -/
theorem cut_tokensFrom {fuel : Nat} (hfuel : text.length ≤ fuel) :
    Ensures (fun tokens => ∃ stop, Cut start text tokens stop [])
      (fun p => ∃ tokens rest, Cut start text tokens p rest ∧ Stuck rest)
      (tokensFrom fuel start text) := by
  induction fuel generalizing start text with
  | zero =>
      rw [List.eq_nil_of_length_eq_zero (Nat.le_zero.mp hfuel)]
      exact ⟨start, .done⟩
  | succ fuel ih =>
      cases text with
      | nil => exact ⟨start, .done⟩
      | cons c cs =>
          rw [List.length_cons] at hfuel
          rw [tokensFrom]
          split
          · next hspace =>
              refine (ih (by omega)).mono ?_ ?_
              · exact fun tokens ⟨stop, h⟩ => ⟨stop, .blank hspace h⟩
              · exact fun p ⟨tokens, rest, h, hstuck⟩ => ⟨tokens, rest, .blank hspace h, hstuck⟩
          · next hspace =>
              split
              · next hnone =>
                  refine ⟨[], c :: cs, .done, ⟨c, cs, rfl, by simpa using hspace⟩, ?_⟩
                  exact fun lexeme token hp => not_lexeme_of_first? hnone hp
              · next token length hfirst =>
                  obtain ⟨lexeme, rfl, hlongest⟩ := longest_of_first? hfirst
                  obtain ⟨rfl, after, htext⟩ := hlongest.exists_append
                  have hpos := List.length_pos_iff.mpr hlongest.matched.ne_nil
                  have hlength := congrArg List.length htext
                  rw [List.length_append, List.length_cons] at hlength
                  rw [htext, List.take_left, List.drop_left]
                  rw [htext] at hlongest
                  have hafter := @ih (start + byteLength token.spelled) after (by omega)
                  refine (hafter.mono (fun _ => id) ?_).bind ?_
                  · exact fun p ⟨tokens, rest, h, hstuck⟩ =>
                      ⟨_, rest, .token hlongest h, hstuck⟩
                  · exact fun tokens ⟨stop, h⟩ => ⟨stop, .token hlongest h⟩

theorem tokensFrom_token {token : Token} {cs : List Char} {fuel : Nat}
    (hlongest : Longest (token.spelled ++ cs) token.spelled token)
    (hmore : tokensFrom fuel (start + byteLength token.spelled) cs = .ok tokens) :
    tokensFrom (fuel + 1) start (token.spelled ++ cs) =
      .ok (⟨token, start, start + byteLength token.spelled⟩ :: tokens) := by
  obtain ⟨c, front, hspelled, -⟩ := hlongest.matched.exists_head
  have hspace : isSpace c = false := (hspelled ▸ hlongest.matched).isSpace_head
  have hfirst := hlongest.first?_eq
  have htake := @List.take_left _ token.spelled cs
  have hdrop := @List.drop_left _ token.spelled cs
  have htext : token.spelled ++ cs = c :: (front ++ cs) := by rw [hspelled, List.cons_append]
  rw [htext] at hfirst htake hdrop ⊢
  rw [tokensFrom, if_neg (by simp [hspace]), hfirst]
  simp only [htake, hdrop, hmore]
  rfl

theorem tokensFrom_of_cut (h : Cut start text tokens stop []) {fuel : Nat}
    (hfuel : text.length ≤ fuel) : tokensFrom fuel start text = .ok tokens := by
  generalize hrest : [] = rest at h
  induction h generalizing fuel with
  | done =>
      subst hrest
      cases fuel <;> rfl
  | blank hc _ ih =>
      rw [List.length_cons] at hfuel
      obtain ⟨fuel, rfl⟩ : ∃ n, fuel = n + 1 := Nat.exists_eq_add_one.mpr (by omega)
      rw [tokensFrom, if_pos hc]
      exact ih (by omega) hrest
  | token hlongest _ ih =>
      have hpos := List.length_pos_iff.mpr hlongest.matched.ne_nil
      rw [List.length_append] at hfuel
      obtain ⟨fuel, rfl⟩ : ∃ n, fuel = n + 1 := Nat.exists_eq_add_one.mpr (by omega)
      exact tokensFrom_token hlongest (ih (by omega) hrest)

theorem tokenize_of_cut {source : String} (h : Cut 0 source.toList tokens stop []) :
    tokenize source = .ok tokens := tokensFrom_of_cut h (Nat.le_refl _)

theorem cut_of_tokenize {source : String} (h : tokenize source = .ok tokens) :
    ∃ stop, Cut 0 source.toList tokens stop [] := by
  have hcut := @cut_tokensFrom 0 source.toList _ (Nat.le_refl _)
  rw [tokenize] at h
  rwa [h] at hcut

theorem cut_of_tokenize_error {source : String} {p : Nat} (h : tokenize source = .error p) :
    ∃ tokens rest, Cut 0 source.toList tokens p rest ∧ Stuck rest := by
  have hcut := @cut_tokensFrom 0 source.toList _ (Nat.le_refl _)
  rw [tokenize] at h
  rwa [h] at hcut

/-! ## Where the tokens lie -/

theorem Cut.exists_front (h : Cut start text tokens stop rest) :
    ∃ front, text = front ++ rest ∧ stop = start + byteLength front := by
  induction h with
  | done => exact ⟨[], rfl, rfl⟩
  | @blank _ _ c _ _ _ _ _ ih =>
      obtain ⟨front, rfl, rfl⟩ := ih
      exact ⟨c :: front, rfl, Nat.add_assoc _ _ _⟩
  | @token _ _ token _ _ _ _ _ ih =>
      obtain ⟨front, rfl, rfl⟩ := ih
      exact ⟨token.spelled ++ front, by simp, by rw [byteLength_append, Nat.add_assoc]⟩

theorem Cut.start_le (h : Cut start text tokens stop rest) : start ≤ stop := by
  obtain ⟨front, -, rfl⟩ := h.exists_front
  exact Nat.le_add_right _ _

theorem Cut.span (h : Cut start text tokens stop rest) :
    ∀ t ∈ tokens, start ≤ t.start ∧ t.start < t.stop ∧ t.stop ≤ stop := by
  induction h with
  | done => exact fun _ => nofun
  | blank _ _ ih =>
      intro t ht
      obtain ⟨hstart, hspan⟩ := ih t ht
      exact ⟨Nat.le_trans (Nat.le_add_right _ _) hstart, hspan⟩
  | token hlongest h ih =>
      have hpos := byteLength_pos hlongest.matched.ne_nil
      have hle := h.start_le
      intro t ht
      rcases List.mem_cons.mp ht with rfl | ht
      · exact ⟨Nat.le_refl _, Nat.lt_add_of_pos_right hpos, hle⟩
      · obtain ⟨hstart, hspan⟩ := ih t ht
        exact ⟨Nat.le_trans (Nat.le_add_right _ _) hstart, hspan⟩

theorem Cut.ascending (h : Cut start text tokens stop rest) :
    tokens.Pairwise fun t u => t.stop ≤ u.start := by
  induction h with
  | done => exact .nil
  | blank _ _ ih => exact ih
  | token _ h ih => exact .cons (fun t ht => (h.span t ht).1) ih

/-- A token is cut from the place that its span tells, and is the longest there. -/
def CutAt (start : Nat) (text : List Char) (t : Located) : Prop :=
  ∃ before after, text = before ++ t.token.spelled ++ after ∧ t.start = start + byteLength before ∧
    t.stop = t.start + byteLength t.token.spelled ∧
    Longest (t.token.spelled ++ after) t.token.spelled t.token

theorem CutAt.append {cs : List Char} (h : CutAt (start + byteLength cs) text t) :
    CutAt start (cs ++ text) t := by
  obtain ⟨before, after, rfl, hstart, hspan⟩ := h
  refine ⟨cs ++ before, after, by simp, ?_, hspan⟩
  rw [hstart, byteLength_append, Nat.add_assoc]

theorem Cut.cutAt (h : Cut start text tokens stop rest) : ∀ t ∈ tokens, CutAt start text t := by
  induction h with
  | done => exact fun _ => nofun
  | @blank _ _ c _ _ _ _ _ ih => exact fun t ht => show CutAt _ ([c] ++ _) t from (ih t ht).append
  | token hlongest _ ih =>
      intro t ht
      rcases List.mem_cons.mp ht with rfl | ht
      · exact ⟨[], _, rfl, rfl, rfl, hlongest⟩
      · exact (ih t ht).append

/-- A byte of the text that is in no span is one of a blank. -/
theorem Cut.mem_blankBytes (h : Cut start text tokens stop rest) {i : Nat} {b : UInt8}
    (hi : start + i < stop) (hb : (encoded text)[i]? = some b)
    (hout : ∀ t ∈ tokens, start + i < t.start ∨ t.stop ≤ start + i) : b ∈ blankBytes := by
  induction h generalizing i with
  | done => omega
  | @blank start _ c cs _ _ hc _ ih =>
      obtain ⟨d, hd, hencoded⟩ := exists_utf8EncodeChar_of_isSpace hc
      have hsize : c.utf8Size = 1 := by rw [← String.length_utf8EncodeChar, hencoded]; rfl
      rw [encoded, List.flatMap_cons, hencoded] at hb
      cases i with
      | zero =>
          cases hb
          exact hd
      | succ i =>
          have hshift : start + c.utf8Size + i = start + (i + 1) := by omega
          exact ih (hshift ▸ hi) hb (hshift ▸ hout)
  | @token start _ token cs _ tokens hlongest _ ih =>
      have hfirst := hout _ List.mem_cons_self
      have hpast : byteLength token.spelled ≤ i := by
        simp only at hfirst
        omega
      obtain ⟨j, rfl⟩ := Nat.exists_eq_add_of_le hpast
      rw [encoded_append, List.getElem?_append_right (by rw [length_encoded]; omega),
        length_encoded, Nat.add_sub_cancel_left] at hb
      rw [← Nat.add_assoc] at hi hout
      exact ih hi hb fun t ht => hout t (List.mem_cons_of_mem _ ht)

/-! ## Cutting again -/

/-- Tokens with single blanks between them are cut as they were. -/
theorem cut_joined {tokens : List Token} (h : ∀ t ∈ tokens, ∃ text, Longest text t.spelled t)
    (start : Nat) :
    ∃ again stop, Cut start ([' '].intercalate (tokens.map Token.spelled)) again stop [] ∧
      again.map Located.token = tokens := by
  induction tokens generalizing start with
  | nil => exact ⟨[], start, .done, rfl⟩
  | cons t tokens ih =>
      obtain ⟨text, hlongest⟩ := h t List.mem_cons_self
      have hothers := fun u hu => h u (List.mem_cons_of_mem t hu)
      cases tokens with
      | nil =>
          have hlast : Longest (t.spelled ++ []) t.spelled t := hlongest.before_blank nofun
          have hcut := @Cut.token start _ _ _ _ _ hlast .done
          rw [List.append_nil, ← @List.intercalate_singleton _ [' '] t.spelled] at hcut
          exact ⟨_, _, hcut, rfl⟩
      | cons u tokens =>
          obtain ⟨again, stop, hcut, hagain⟩ := ih hothers (start + byteLength t.spelled + 1)
          refine ⟨⟨t, start, start + byteLength t.spelled⟩ :: again, stop, ?_, by simp [hagain]⟩
          rw [List.map_cons, List.map_cons, List.intercalate_cons_cons, List.append_assoc]
          exact .token (hlongest.before_blank (by simp [isSpace])) (.blank rfl hcut)

/-- The tokens with single spaces between them, as a source. -/
def respaced (tokens : List Located) : String :=
  String.ofList ([' '].intercalate (tokens.map fun t => t.token.spelled))

theorem Cut.tokenize_respaced (h : Cut start text tokens stop rest) :
    ∃ again, tokenize (respaced tokens) = .ok again ∧
      again.map Located.token = tokens.map Located.token := by
  have hlongest : ∀ t ∈ tokens.map Located.token, ∃ text, Longest text t.spelled t := by
    intro token htoken
    obtain ⟨t, ht, rfl⟩ := List.mem_map.mp htoken
    obtain ⟨_, after, _, _, _, hlongest⟩ := h.cutAt t ht
    exact ⟨_, hlongest⟩
  obtain ⟨again, stop, hcut, hagain⟩ := cut_joined hlongest 0
  have hrespaced : Cut 0 (respaced tokens).toList again stop [] := by
    rw [List.map_map] at hcut
    rwa [respaced, String.toList_ofList]
  exact ⟨again, tokenize_of_cut hrespaced, hagain⟩

/-! ## Sources -/

/-- The tokens tile a source up to a byte: their spans are not empty, lie in order and apart, and
are cut from the source as longest lexemes, and every byte outside them is a blank. -/
structure Tiles (source : String) (stop : Nat) (tokens : List Located) : Prop where
  nonempty : ∀ t ∈ tokens, t.start < t.stop
  within : ∀ t ∈ tokens, t.stop ≤ stop
  ascending : tokens.Pairwise fun t u => t.stop ≤ u.start
  cutAt : ∀ t ∈ tokens, CutAt 0 source.toList t
  blank : ∀ i b, i < stop → (ByteOrder.bytes source)[i]? = some b →
    (∀ t ∈ tokens, i < t.start ∨ t.stop ≤ i) → b ∈ blankBytes

theorem Cut.tiles {source : String} (h : Cut 0 source.toList tokens stop rest) :
    Tiles source stop tokens where
  nonempty t ht := (h.span t ht).2.1
  within t ht := (h.span t ht).2.2
  ascending := h.ascending
  cutAt := h.cutAt
  blank i b hi hb hout := by
    rw [bytes_eq_encoded] at hb
    rw [← Nat.zero_add i] at hi hout
    exact h.mem_blankBytes hi hb hout

/-- If a source is cut the tokens tile all of it, and they are cut again from their texts with
single spaces between them. If it is not they tile the source up to a byte where no blank and no
lexeme begins. -/
theorem tokenize_tiles (source : String) :
    (∀ tokens, tokenize source = .ok tokens →
      Tiles source source.utf8ByteSize tokens ∧
        ∃ again, tokenize (respaced tokens) = .ok again ∧
          again.map Located.token = tokens.map Located.token) ∧
    ∀ p, tokenize source = .error p →
      (∃ tokens, Tiles source p tokens) ∧
        ∃ before after, source.toList = before ++ after ∧ p = byteLength before ∧
          Stuck after := by
  constructor
  · intro tokens htokens
    obtain ⟨stop, h⟩ := cut_of_tokenize htokens
    obtain ⟨front, hfront, hstop⟩ := h.exists_front
    have hsize : stop = source.utf8ByteSize := by
      rw [utf8ByteSize_eq_byteLength, hfront, List.append_nil, hstop, Nat.zero_add]
    exact ⟨hsize ▸ h.tiles, h.tokenize_respaced⟩
  · intro p hp
    obtain ⟨tokens, after, h, hstuck⟩ := cut_of_tokenize_error hp
    obtain ⟨before, hbefore, hstop⟩ := h.exists_front
    exact ⟨⟨tokens, h.tiles⟩, before, after, hbefore, by rw [hstop, Nat.zero_add], hstuck⟩

/-- The escaped mark does not close the text, and the three signs are one symbol. Where no mark
closes the text nothing is cut from the one that opens it on. -/
theorem tokenize_tiles_of_quoted :
    let tokens : List Located := [⟨.ident "a", 0, 1⟩, ⟨.symbol .strictNotEqual, 1, 4⟩,
      ⟨.quoted .single "é\\'", 4, 10⟩]
    (Tiles "a!=='é\\''" 10 tokens ∧
      ∃ again, tokenize "a !== 'é\\''" = .ok again ∧
        again.map Located.token = tokens.map Located.token) ∧
      (∃ tokens, Tiles "a 'é" 2 tokens) ∧
        ∃ before after, "a 'é".toList = before ++ after ∧ 2 = byteLength before ∧
          Stuck after := by
  intro tokens
  have htokens : tokenize "a!=='é\\''" = .ok tokens := by decide
  have hfails : tokenize "a 'é" = .error 2 := by decide
  exact ⟨(tokenize_tiles _).1 _ htokens, (tokenize_tiles _).2 _ hfails⟩

end Curator.Predicate
