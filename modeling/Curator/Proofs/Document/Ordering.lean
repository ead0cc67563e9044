import Curator.Proofs.Document.NormalForm
import Curator.Proofs.Visibility.RuleSet

/-! # Where members come in an ordered document

A schema reaches every value of a document by the steps that lead there, and each object is ordered
by the part of the schema that reaches it. A part of a document can also be ordered for itself; the
schema is then followed along the pointer to it, and a position in the pointer is an item to it.
-/

namespace Curator

namespace KeyOrder

variable {schema part sub value inner found document : Json} {top : Option Json} {s : Segment}
  {name : String} {root p q rest : Pointer} {members : List (String × Json)} {items : List Json}
  {i : Nat}

/-! ## The part of a schema for a value -/

/-- `Governs schema document q part`: what a schema says about the value at a pointer. A member is
under the property declared for it, else under the additional properties if these are an object. An
item is under its place in a tuple, or under the one schema for all items. -/
inductive Governs : Json → Json → Pointer → Json → Prop where
  | here (schema document : Json) : Governs schema document [] schema
  | declared {schema properties part inner sub : Json} {s : Segment} {name : String}
      {rest : Pointer} {members : List (String × Json)} (hs : s.name? = some name)
      (hinner : Members.get? name members = some inner)
      (hproperties : schema.member? "properties" = some properties)
      (hpart : properties.member? name = some part) (h : Governs part inner rest sub) :
      Governs schema (.object members) (s :: rest) sub
  | additional {schema inner sub : Json} {s : Segment} {name : String} {rest : Pointer}
      {members others : List (String × Json)} (hs : s.name? = some name)
      (hinner : Members.get? name members = some inner)
      (hundeclared : ∀ properties, schema.member? "properties" = some properties →
        properties.member? name = none)
      (hothers : schema.member? "additionalProperties" = some (.object others))
      (h : Governs (.object others) inner rest sub) : Governs schema (.object members) (s :: rest) sub
  | tuple {schema part inner sub : Json} {i : Nat} {rest : Pointer} {items parts : List Json}
      (hinner : items[i]? = some inner) (hparts : schema.member? "items" = some (.array parts))
      (hpart : parts[i]? = some part) (h : Governs part inner rest sub) :
      Governs schema (.array items) (.index i :: rest) sub
  | items {schema part inner sub : Json} {i : Nat} {rest : Pointer} {items : List Json}
      (hinner : items[i]? = some inner) (hpart : schema.member? "items" = some part)
      (hsingle : ∀ parts, part ≠ .array parts) (h : Governs part inner rest sub) :
      Governs schema (.array items) (.index i :: rest) sub

theorem propertySchema_eq_some_iff :
    propertySchema name schema = some part ↔
      (∃ properties, schema.member? "properties" = some properties ∧
        properties.member? name = some part) ∨
      (∀ properties, schema.member? "properties" = some properties →
        properties.member? name = none) ∧
        ∃ others, schema.member? "additionalProperties" = some (.object others) ∧
          .object others = part := by
  unfold propertySchema
  cases hproperties : schema.member? "properties" with
  | none =>
      cases schema.member? "additionalProperties" with
      | none => simp
      | some additional => cases additional <;> simp
  | some properties =>
      cases hpart : properties.member? name with
      | some found => simp [hpart]
      | none =>
          cases schema.member? "additionalProperties" with
          | none => simp [hpart]
          | some additional => cases additional <;> simp [hpart]

theorem itemSchema_eq_some_iff :
    itemSchema i schema = some part ↔
      (∃ parts, schema.member? "items" = some (.array parts) ∧ parts[i]? = some part) ∨
      schema.member? "items" = some part ∧ ∀ parts, part ≠ .array parts := by
  unfold itemSchema
  cases hitems : schema.member? "items" with
  | none => simp
  | some single =>
      cases single with
      | array parts =>
          constructor
          · intro h
            exact .inl ⟨parts, rfl, h⟩
          · rintro (⟨others, hothers, h⟩ | ⟨hpart, hsingle⟩)
            · cases hothers
              exact h
            · exact absurd (Option.some.inj hpart).symm (hsingle parts)
      | _ =>
          simp only [Option.some.injEq, reduceCtorEq, false_and, exists_false, false_or]
          exact ⟨fun h => ⟨h, fun parts hparts => by simp [hparts] at h⟩, And.left⟩

/-- The part of a schema for what is one step below a value. On an object a position is a name. -/
def schemaBelow (value : Json) (s : Segment) (schema : Json) : Option Json :=
  match value, s with
  | .object _, s => s.name?.bind (propertySchema · schema)
  | .array _, .index i => itemSchema i schema
  | _, _ => none

/-- The part of a schema for the value at a pointer, found by going down the document with it. -/
def governing : Option Json → Json → Pointer → Option Json
  | schema, _, [] => schema
  | schema, value, s :: rest =>
    (value.child? s).bind (governing (schema.bind (schemaBelow value s)) · rest)

theorem governing_none (value : Json) (q : Pointer) : governing none value q = none := by
  induction q generalizing value with
  | nil => rfl
  | cons s rest ih => simp [governing, ih]

theorem Governs.governing_eq (h : Governs schema value q part) :
    governing (some schema) value q = some part := by
  induction h with
  | here => rfl
  | declared hs hinner hproperties hpart _ ih =>
      have hbelow := propertySchema_eq_some_iff.mpr (.inl ⟨_, hproperties, hpart⟩)
      simp [governing, schemaBelow, Json.child?_object hs, hinner, hs, hbelow, ih]
  | additional hs hinner hundeclared hothers _ ih =>
      have hbelow := propertySchema_eq_some_iff.mpr (.inr ⟨hundeclared, _, hothers, rfl⟩)
      simp [governing, schemaBelow, Json.child?_object hs, hinner, hs, hbelow, ih]
  | tuple hinner hparts hpart _ ih =>
      have hbelow := itemSchema_eq_some_iff.mpr (.inl ⟨_, hparts, hpart⟩)
      simp [governing, schemaBelow, Json.child?, hinner, hbelow, ih]
  | @items _ _ _ _ i _ _ hinner hpart hsingle _ ih =>
      have hbelow := (itemSchema_eq_some_iff (i := i)).mpr (.inr ⟨hpart, hsingle⟩)
      simp [governing, schemaBelow, Json.child?, hinner, hbelow, ih]

theorem governs_of_governing (h : governing (some schema) value q = some sub) :
    Governs schema value q sub := by
  induction q generalizing schema value with
  | nil =>
      obtain rfl : schema = sub := Option.some.inj h
      exact .here schema value
  | cons s rest ih =>
      obtain ⟨inner, hinner, h⟩ := Option.bind_eq_some_iff.mp h
      rw [Option.bind_some] at h
      cases hpart : schemaBelow value s schema with
      | none => simp [hpart, governing_none] at h
      | some part =>
          rw [hpart] at h
          have hbelow := ih h
          cases value with
          | object members =>
              obtain ⟨name, hs, hpart⟩ := Option.bind_eq_some_iff.mp hpart
              rw [Json.child?_object hs] at hinner
              rcases propertySchema_eq_some_iff.mp hpart with
                ⟨properties, hproperties, hpart⟩ | ⟨hundeclared, others, hothers, rfl⟩
              · exact .declared hs hinner hproperties hpart hbelow
              · exact .additional hs hinner hundeclared hothers hbelow
          | array items =>
              cases s with
              | index i =>
                  rcases itemSchema_eq_some_iff.mp hpart with
                    ⟨parts, hparts, hpart⟩ | ⟨hpart, hsingle⟩
                  · exact .tuple hinner hparts hpart hbelow
                  · exact .items hinner hpart hsingle hbelow
              | _ => cases hpart
          | _ => cases hpart

/-! ## Reading in an ordered document -/

theorem getElem?_itemsBySchema (top : Option Json) (position : Nat) (items : List Json) (i : Nat) :
    (itemsBySchema top position items)[i]? =
      items[i]?.map (bySchema (top.bind (itemSchema (position + i)))) := by
  induction items generalizing position i with
  | nil => rfl
  | cons item rest ih =>
      cases i with
      | zero => rfl
      | succ i =>
          have hrest := ih (position + 1) i
          rw [Nat.add_right_comm] at hrest
          exact hrest

theorem child?_bySchema (top : Option Json) (value : Json) (s : Segment) :
    (bySchema top value).child? s =
      (value.child? s).map (bySchema (top.bind (schemaBelow value s))) := by
  cases value with
  | object members =>
      cases hs : s.name? with
      | none => cases s <;> first | rfl | cases hs
      | some name =>
          have hbelow : schemaBelow (.object members) s = propertySchema name := by
            funext schema
            simp [schemaBelow, hs]
          rw [bySchema, Json.child?_object hs, Json.child?_object hs, get?_promote,
            get?_membersBySchema, hbelow]
  | array items =>
      cases s with
      | index i =>
          have hitem := getElem?_itemsBySchema top 0 items i
          rw [Nat.zero_add] at hitem
          exact hitem
      | _ => rfl
  | _ => cases s <;> rfl

/-- At a place of an ordered document stands the value from there, ordered by the part of the schema
that governs it. -/
theorem get?_bySchema (top : Option Json) (value : Json) (q : Pointer) :
    (bySchema top value).get? q = (value.get? q).map (bySchema (governing top value q)) := by
  induction q generalizing top value with
  | nil => rfl
  | cons s rest ih =>
      rw [Json.get?, Json.get?, child?_bySchema]
      cases hinner : value.child? s with
      | none => rfl
      | some inner =>
          rw [Option.map_some, Option.bind_some, Option.bind_some, ih]
          simp [governing, hinner]

/-- Without a schema the members stay where they are. -/
theorem bySchema_none (value : Json) : bySchema none value = value := by
  induction value using Json.induction with
  | array items ih =>
      have hitems : ∀ position, itemsBySchema none position items = items := by
        intro position
        induction items generalizing position with
        | nil => rfl
        | cons item rest ihrest =>
            have hitem := ih item List.mem_cons_self
            have hrest := ihrest (fun other h => ih other (List.mem_cons_of_mem item h))
            simp [itemsBySchema, hitem, hrest]
      rw [bySchema, hitems]
  | object members ih =>
      have hmembers : membersBySchema none members = members := membersBySchema_eq_self ih
      simp [bySchema, hmembers, promote, declaredNames]
  | _ => rfl

/-! ## The members of one object -/

theorem keys_promoted (names : List String) (members : List (String × Json)) :
    Members.keys (names.filterMap fun name => (Members.get? name members).map (name, ·)) =
      names.filter (· ∈ Members.keys members) := by
  induction names with
  | nil => rfl
  | cons name rest ih =>
      cases hvalue : Members.get? name members with
      | none =>
          have hname : name ∉ Members.keys members := Members.get?_eq_none_iff.mp hvalue
          simp [hvalue, hname, ih]
      | some value =>
          have hname : name ∈ Members.keys members :=
            Members.isSome_get?_iff.mp (Option.isSome_of_eq_some hvalue)
          simp [hvalue, hname, ih]

/-- The promoted names that are there come in their own order, the others in that of the object. -/
theorem keys_promote (names : List String) (members : List (String × Json)) :
    Members.keys (promote names members) =
      names.filter (· ∈ Members.keys members) ++
        (Members.keys members).filter (· ∉ names) := by
  have hothers : (members.filter fun m => !names.contains m.1) =
      members.filter fun m => decide (m.1 ∉ names) := by simp
  rw [promote, Members.keys_append, keys_promoted, hothers,
    Members.keys_filter fun name => name ∉ names]

theorem keys_bySchema (top : Option Json) (members : List (String × Json)) :
    ∃ ordered, bySchema top (.object members) = .object ordered ∧
      Members.keys ordered =
        (declaredNames top).filter (· ∈ Members.keys members) ++
          (Members.keys members).filter (· ∉ declaredNames top) := by
  refine ⟨_, rfl, ?_⟩
  rw [keys_promote, keys_membersBySchema]

/-- Sorting puts every object in the strict order of names. -/
theorem ascending_sortKeys (h : value.WellFormed) (hw : Json.Within (.object members) (sortKeys value)) :
    (Members.keys members).Pairwise fun a b => ByteOrder.lt a b = true := by
  induction value using Json.induction with
  | array items ih =>
      rw [sortKeys, sortItems_eq_map] at hw
      cases hw with
      | item hi hw =>
          obtain ⟨old, hold, rfl⟩ := List.mem_map.mp hi
          exact ih old hold (Json.wellFormed_array_iff.mp h old hold) hw
  | object ms ih =>
      have hperm := List.mergeSort_perm (sortMembers ms) fun a b => ByteOrder.le a.1 b.1
      rw [sortKeys] at hw
      cases hw with
      | root =>
          have hdistinct : Members.Distinct
              ((sortMembers ms).mergeSort fun a b => ByteOrder.le a.1 b.1) :=
            (distinct_sortMembers h.distinct).of_perm hperm.symm
          have hne := List.pairwise_map.mp hdistinct
          have hle := ByteOrder.pairwise_mergeSort (sortMembers ms)
          refine List.pairwise_map.mpr (hle.imp₂ ?_ hne)
          intro a b hab hdiffer
          exact ByteOrder.lt_of_not_lt hdiffer.symm (by simpa [ByteOrder.le] using hab)
      | member hm hw =>
          have hmember := hperm.mem_iff.mp hm
          rw [sortMembers_eq_map] at hmember
          obtain ⟨old, hold, rfl⟩ := List.mem_map.mp hmember
          exact ih old hold ((Json.wellFormed_object_iff.mp h).2 old hold) hw
  | _ => cases hw

theorem declaredNames_eq {properties : List (String × Json)}
    (h : part.member? "properties" = some (.object properties)) :
    declaredNames (some part) = Members.keys properties := by
  simp [declaredNames, h]

theorem declaredNames_eq_nil
    (h : ∀ part properties, top = some part →
      part.member? "properties" ≠ some (.object properties)) :
    declaredNames top = [] := by
  cases top with
  | none => rfl
  | some part =>
      simp only [declaredNames]
      split
      · next properties hproperties => exact absurd hproperties (h part properties rfl)
      · rfl

/-- Any order moves the members of objects and changes nothing else, and it moves nothing the second
time. Sorted names ascend by their bytes in every object. By a schema each object has the names that
the part for it declares first, as they are declared, and then its other names as they were; where
nothing is declared all names stay where they were. -/
theorem apply_arranges {order : KeyOrder} (ho : order.WellFormed) (root : Pointer) {value : Json}
    (h : value.WellFormed) :
    Json.SameUpToKeyOrder value (order.apply root value) ∧
      order.apply root (order.apply root value) = order.apply root value ∧
      (order = .preserve → order.apply root value = value) ∧
      (order = .sorted → ∀ members, Json.Within (.object members) (order.apply root value) →
        (Members.keys members).Pairwise fun a b => ByteOrder.lt a b = true) ∧
      ∀ schema, order = .declared schema →
        ∀ q members, value.get? q = some (.object members) →
          ∃ ordered, (order.apply root value).get? q = some (.object ordered) ∧
            (∀ top part properties, schemaAt schema root = some top → Governs top value q part →
              part.member? "properties" = some (.object properties) →
              Members.keys ordered =
                (Members.keys properties).filter (· ∈ Members.keys members) ++
                  (Members.keys members).filter (· ∉ Members.keys properties)) ∧
            ((∀ top part properties, schemaAt schema root = some top → Governs top value q part →
              part.member? "properties" ≠ some (.object properties)) →
              Members.keys ordered = Members.keys members) := by
  refine ⟨same_apply ho root h, apply_apply order root value, ?_, ?_, ?_⟩
  · rintro rfl
    rfl
  · rintro rfl members hw
    exact ascending_sortKeys h hw
  · rintro schema rfl q members hmembers
    have hread := get?_bySchema (schemaAt schema root) value q
    rw [hmembers, Option.map_some] at hread
    obtain ⟨ordered, hordered, hkeys⟩ :=
      keys_bySchema (governing (schemaAt schema root) value q) members
    rw [hordered] at hread
    refine ⟨ordered, hread, fun top part properties htop hpart hproperties => ?_, fun hnone => ?_⟩
    · rw [htop, hpart.governing_eq, declaredNames_eq hproperties] at hkeys
      exact hkeys
    · have hnil : declaredNames (governing (schemaAt schema root) value q) = [] := by
        refine declaredNames_eq_nil fun part properties hgoverning => ?_
        cases htop : schemaAt schema root with
        | none => simp [htop, governing_none] at hgoverning
        | some top =>
            rw [htop] at hgoverning
            exact hnone top part properties htop (governs_of_governing hgoverning)
      simpa [hnil] using hkeys

/-- An undeclared member with two declared names in it, under the additional properties. -/
theorem apply_arranges_of_additional :
    let schema := Json.object [("properties", .object [("z", .null)]),
      ("additionalProperties", .object [("properties", .object [("y", .null), ("x", .null)])])]
    let inner := [("w", Json.null), ("x", .null), ("y", .null)]
    let value := Json.object [("a", .object inner), ("z", .null)]
    let order := KeyOrder.declared schema
    order.apply [] (order.apply [] value) = order.apply [] value ∧
      ∃ ordered, (order.apply [] value).get? [.key "a"] = some (.object ordered) ∧
        Members.keys ordered = ["y", "x", "w"] := by
  intro schema inner value order
  have ho : order.WellFormed := by simp [order, WellFormed, schema, Members.Distinct, Members.keys]
  have h : value.WellFormed := by simp [value, inner, Members.Distinct, Members.keys]
  obtain ⟨-, htwice, -, -, hdeclared⟩ := apply_arranges ho [] h
  obtain ⟨ordered, hread, hkeys, -⟩ := hdeclared schema rfl [.key "a"] inner rfl
  have hpart : Governs schema value [.key "a"] (.object [("properties",
      .object [("y", .null), ("x", .null)])]) :=
    .additional rfl rfl (by rintro _ ⟨⟩; rfl) rfl (.here _ _)
  refine ⟨htwice, ordered, hread, ?_⟩
  rw [hkeys schema _ _ rfl hpart rfl]
  decide

/-! ## The parts of a document -/

theorem schemaAt_cons (schema : Json) (s : Segment) (p : Pointer) :
    schemaAt schema (s :: p) = (stepSchema schema s).bind (schemaAt · p) := by
  simp [schemaAt]

/-- Where a step leads to a member by its name, or to an item, the schema is followed by the step
alone. -/
theorem schemaBelow_eq (h : value.child? s = some inner)
    (hitem : ∀ members i, value = .object members → s ≠ .index i) :
    schemaBelow value s = (stepSchema · s) := by
  rcases Json.child?_cases h with ⟨name, before, after, hs, -, rfl⟩ | ⟨before, after, rfl, rfl⟩
  · cases s with
    | key other => rfl
    | index i => exact absurd rfl (hitem _ i rfl)
    | wildcard => cases hs
  · rfl

/-- The positions of a pointer lead to items. -/
def Itemized (document : Json) (p : Pointer) : Prop :=
  ∀ parents i rest members, p = parents ++ .index i :: rest →
    document.get? parents ≠ some (.object members)

theorem Itemized.tail (h : Itemized value (s :: rest)) (hinner : value.child? s = some inner) :
    Itemized inner rest := by
  intro parents i more members hrest hread
  refine h (s :: parents) i more members (by rw [hrest, List.cons_append]) ?_
  rw [Json.get?, hinner, Option.bind_some, hread]

theorem governing_eq_schemaAt (hfound : value.get? p = some found) (h : Itemized value p) :
    governing top value p = top.bind (schemaAt · p) := by
  induction p generalizing value top with
  | nil =>
      cases top <;> rfl
  | cons s rest ih =>
      obtain ⟨inner, hinner, hrest⟩ := Option.bind_eq_some_iff.mp hfound
      have hbelow : schemaBelow value s = (stepSchema · s) := by
        refine schemaBelow_eq hinner ?_
        rintro members i rfl rfl
        exact h [] i rest members rfl rfl
      simp only [schemaAt_cons]
      rw [governing, hinner, Option.bind_some, hbelow, ih hrest (h.tail hinner), Option.bind_assoc]

/-- In a document that is ordered by a schema, every part is ordered by what the schema says about
it, and left alone where it says nothing. Ordering the part for itself, as what sits at its pointer,
comes to the same if the positions of the pointer lead to items. -/
theorem apply_part (schema : Json) {document found : Json} {p : Pointer}
    (hfound : document.get? p = some found) :
    let ordered := (KeyOrder.declared schema).apply [] document
    (∀ part, Governs schema document p part →
        ordered.get? p = some ((KeyOrder.declared part).apply [] found)) ∧
      ((∀ part, ¬ Governs schema document p part) → ordered.get? p = some found) ∧
      (Itemized document p → ordered.get? p = some ((KeyOrder.declared schema).apply p found)) := by
  intro ordered
  have hread : ordered.get? p = some (bySchema (governing (some schema) document p) found) := by
    have hall := get?_bySchema (some schema) document p
    rw [hfound] at hall
    exact hall
  refine ⟨fun part hpart => ?_, fun hnone => ?_, fun hitems => ?_⟩
  · rw [hread, hpart.governing_eq]
    rfl
  · have hgoverning : governing (some schema) document p = none :=
      Option.eq_none_iff_forall_ne_some.mpr fun part hpart =>
        hnone part (governs_of_governing hpart)
    rw [hread, hgoverning, bySchema_none]
  · rw [hread, governing_eq_schemaAt hfound hitems]
    rfl

/-- The second item of a tuple, below a member. -/
theorem apply_part_of_tuple :
    let last := Json.object [("properties", .object [("y", .null), ("x", .null)])]
    let schema := Json.object [("properties", .object [("b",
      .object [("items", .array [.null, last])])])]
    let found := Json.object [("x", .null), ("y", .null)]
    let document := Json.object [("b", .array [found, found])]
    let p : Pointer := [.key "b", .index 1]
    document.get? p = some found ∧
      ((KeyOrder.declared schema).apply [] document).get? p =
        some ((KeyOrder.declared schema).apply p found) ∧
      (KeyOrder.declared schema).apply p found = .object [("y", .null), ("x", .null)] := by
  intro last schema found document p
  have hfound : document.get? p = some found := rfl
  have hitems : Itemized document p := by
    intro parents i rest members hp
    cases parents with
    | nil => simp [p] at hp
    | cons first more =>
        obtain ⟨rfl, hmore⟩ : Segment.key "b" = first ∧ _ := by simpa [p] using hp
        cases more with
        | nil =>
            have hread : document.get? [.key "b"] = some (.array [found, found]) := rfl
            simp [hread]
        | cons second others => simp at hmore
  obtain ⟨-, -, halone⟩ := apply_part schema hfound
  exact ⟨hfound, halone hitems, rfl⟩

/-- The name of a member may be spelled like a position. -/
theorem not_apply_part_of_numeric_name :
    let schema := Json.object [("properties", .object [("0",
      .object [("properties", .object [("a", .null), ("b", .null)])])])]
    let found := Json.object [("b", .null), ("a", .null)]
    let document := Json.object [("0", found)]
    let p := Pointer.parse "/0"
    p.wildcards = [] ∧ document.get? p = some found ∧
      ((KeyOrder.declared schema).apply [] document).get? p =
        some (.object [("a", .null), ("b", .null)]) ∧
      (KeyOrder.declared schema).apply p found = found ∧
      ((KeyOrder.declared schema).apply [] document).get? p ≠
        some ((KeyOrder.declared schema).apply p found) := by
  intro schema found document p
  have hp : p = [.index 0] := by decide +kernel
  rw [hp]
  have hordered : ((KeyOrder.declared schema).apply [] document).get? [.index 0] =
      some (.object [("a", .null), ("b", .null)]) := rfl
  have halone : (KeyOrder.declared schema).apply [.index 0] found = found := rfl
  refine ⟨rfl, rfl, hordered, halone, ?_⟩
  rw [hordered, halone]
  simp [found]

end KeyOrder

end Curator
