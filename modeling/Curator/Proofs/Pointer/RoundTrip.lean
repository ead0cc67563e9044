import Curator.Proofs.Pointer.Text

/-! # Which pointers read back

A pointer is read back from its text unless a name in it is spelled like the wildcard or like a
position, or it is the single empty name, whose text is that of the root. What a text was read as
always reads back, so reading a text and writing it once more settles it. The escapes in a text are
two replacements, one after the other.
-/

namespace Curator

namespace Segment

/-! ## Escapes as replacements -/

/-- Puts a character for every occurrence of two others in a row, from the left. -/
def replacePair (first second new : Char) : List Char → List Char
  | a :: b :: rest =>
    if a = first ∧ b = second then new :: replacePair first second new rest
    else a :: replacePair first second new (b :: rest)
  | short => short

def replaceChar (old : Char) (new text : List Char) : List Char :=
  text.flatMap fun c => if c = old then new else [c]

theorem replacePair_cons_of_ne {first second new c : Char} (h : c ≠ first) (rest : List Char) :
    replacePair first second new (c :: rest) = c :: replacePair first second new rest := by
  cases rest with
  | nil => rfl
  | cons b rest => rw [replacePair, if_neg fun hpair => h hpair.1]

theorem exists_replacePair_cons (first second new c : Char) (rest : List Char) :
    ∃ c' rest', replacePair first second new (c :: rest) = c' :: rest' ∧ (c' = c ∨ c' = new) := by
  cases rest with
  | nil => exact ⟨c, [], rfl, .inl rfl⟩
  | cons b rest =>
      rw [replacePair]
      split
      · exact ⟨new, _, rfl, .inr rfl⟩
      · exact ⟨c, _, rfl, .inl rfl⟩

/-- Slashes are put back before tildes, so that no tilde that was put back is read again. -/
theorem unescape_eq_replacePair (cs : List Char) :
    unescape cs = replacePair '~' '0' '~' (replacePair '~' '1' '/' cs) := by
  induction cs using unescape.induct with
  | case1 rest ih =>
      have hinner : replacePair '~' '1' '/' ('~' :: '1' :: rest) =
          '/' :: replacePair '~' '1' '/' rest := rfl
      rw [unescape, ih, hinner, replacePair_cons_of_ne (by decide)]
  | case2 rest ih =>
      have hinner : replacePair '~' '1' '/' ('~' :: '0' :: rest) =
          '~' :: '0' :: replacePair '~' '1' '/' rest :=
        congrArg _ (replacePair_cons_of_ne (by decide) rest)
      rw [unescape, ih, hinner]
      rfl
  | case3 c rest hone hzero ih =>
      rw [unescape, ih]
      · by_cases hc : c = '~'
        · subst hc
          cases rest with
          | nil => rfl
          | cons b more =>
              have hb : ¬ ('~' = '~' ∧ b = '1') := fun h => hone more rfl (by rw [h.2])
              obtain ⟨b', more', hmore, hhead⟩ := exists_replacePair_cons '~' '1' '/' b more
              -- The first replacement puts no zero behind a tilde.
              have hb' : ¬ ('~' = '~' ∧ b' = '0') := by
                rintro ⟨-, rfl⟩
                rcases hhead with rfl | hslash
                · exact hzero more rfl rfl
                · cases hslash
              rw [replacePair, if_neg hb, hmore, replacePair, if_neg hb']
        · rw [replacePair_cons_of_ne hc, replacePair_cons_of_ne hc]
      · exact hone
      · exact hzero
  | case4 => rfl

/-- Tildes are escaped before slashes. -/
theorem escape_eq_replaceChar (name : List Char) :
    escape name = replaceChar '/' ['~', '1'] (replaceChar '~' ['~', '0'] name) := by
  unfold escape replaceChar
  rw [List.flatMap_assoc]
  refine congrArg (name.flatMap ·) (funext fun c => ?_)
  unfold escapeChar
  split
  · rfl
  · rw [List.flatMap_singleton]

/-! ## Steps that read back -/

/-- The steps that their own texts stand for. A name must be neither the dash nor the decimal of a
position, and positions are below their bound. -/
def Legible : Segment → Prop
  | key name => name ≠ "-" ∧ ∀ i < positionBound, name ≠ toString i
  | index i => i < positionBound
  | wildcard => True

/-- A name is read as a position where it is the decimal of one. -/
theorem isPosition_and_lt_iff (name : String) :
    (isPosition name.toList && decide (Digits.value name.toList < positionBound)) = true ↔
      ∃ i < positionBound, name = toString i := by
  rw [Bool.and_eq_true, decide_eq_true_eq]
  constructor
  · rintro ⟨hposition, hlt⟩
    refine ⟨_, hlt, String.toList_inj.mp ?_⟩
    rw [toList_toString, ofNat_value hposition]
  · rintro ⟨i, hlt, rfl⟩
    rw [toList_toString, Digits.value_ofNat]
    exact ⟨isPosition_ofNat i, hlt⟩

theorem reread_key_eq_self_iff (name : String) :
    reread (.key name) = .key name ↔ name ≠ "-" ∧ ∀ i < positionBound, name ≠ toString i := by
  rw [reread_key]
  split
  · next hdash => simp [hdash]
  · next hdash =>
      split
      · next hposition =>
          obtain ⟨i, hlt, hname⟩ := (isPosition_and_lt_iff name).mp hposition
          exact iff_of_false nofun fun h => h.2 i hlt hname
      · next hposition =>
          rw [isPosition_and_lt_iff] at hposition
          exact iff_of_true rfl ⟨hdash, fun i hlt hname => hposition ⟨i, hlt, hname⟩⟩

theorem reread_index_eq_self_iff (i : Nat) : reread (.index i) = .index i ↔ i < positionBound := by
  refine ⟨fun h => ?_, reread_index⟩
  have htoken : ofToken (Digits.ofNat i) = .index i := h
  unfold ofToken at htoken
  split at htoken
  · cases htoken
  · split at htoken
    · next hposition =>
        rw [Bool.and_eq_true, decide_eq_true_eq, Digits.value_ofNat] at hposition
        exact hposition.2
    · cases htoken

theorem reread_eq_self_iff (s : Segment) : reread s = s ↔ s.Legible := by
  cases s with
  | key name => exact reread_key_eq_self_iff name
  | index i => exact reread_index_eq_self_iff i
  | wildcard => exact iff_of_true rfl trivial

end Segment

namespace Pointer

variable {p : Pointer}

theorem parse_render_eq_self (h : p ≠ [.key ""]) :
    parse p.render = p ↔ ∀ s ∈ p, s.Legible := by
  rw [parse_render h]
  constructor
  · intro hmap s hs
    rw [← Segment.reread_eq_self_iff]
    exact List.map_inj_left.mp (hmap.trans (List.map_id p).symm) s hs
  · intro hlegible
    refine (List.map_congr_left fun s hs => ?_).trans (List.map_id p)
    exact (Segment.reread_eq_self_iff s).mpr (hlegible s hs)

/-- A pointer is what its text reads as just when it is not the single empty name and each of its
steps is what its own text stands for. What a text reads as is so, and writing it leaves a text that
stays the same. -/
theorem round_trip_exact (p : Pointer) (text : String) :
    (parse p.render = p ↔ p ≠ [.key ""] ∧ ∀ s ∈ p, s.Legible) ∧
      parse (parse text).render = parse text ∧
        (parse (parse text).render).render = (parse text).render := by
  have hread : parse (parse text).render = parse text := by
    have hsteps : parse ((parse text).resolve []).render = (parse text).resolve [] :=
      parse_render_resolve text nofun
    rwa [resolve_nil] at hsteps
  refine ⟨⟨fun hself => ?_, fun ⟨hne, hlegible⟩ => (parse_render_eq_self hne).mpr hlegible⟩,
    hread, by rw [hread]⟩
  have hne : p ≠ [.key ""] := fun hempty => parse_ne_empty p.render (hself.trans hempty)
  exact ⟨hne, (parse_render_eq_self hne).mp hself⟩

/-- A leading zero keeps a row of digits a name. -/
example : parse (render [.key "a/b", .key "07", .key "7"]) = [.key "a/b", .key "07", .index 7] := by
  decide +kernel

end Pointer

end Curator
