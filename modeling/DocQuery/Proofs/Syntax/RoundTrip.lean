import DocQuery.Proofs.Value.Rounding
import DocQuery.Syntax.Printer
import DocQuery.Syntax.Reader

/-!
# Syntax trees written and read again

**The written form of a syntax tree reads as the tree it was written for, and whatever JSON a tree
was read from, its written form reads as the same tree** (`round_trip`). So what a reader accepts
beside it, another name for a field, a field left out, one too many, a list or a number for a kind,
makes no difference to a tree.

A kind is written with all of its fields and no others, and the reader finds each of them whatever
their order (`node_written`). That holds for literals that JSON can hold; those of a tree that was
read are among them (`Reading.Sound`), integers that were rounded included.
-/

set_option autoImplicit false

namespace DocQuery

/-! ## Literals -/

namespace Json

mutual

/-- Whether the numbers of a value are those that JSON has: integers from `-2 ^ 63` to `2 ^ 64 - 1`
and finite doubles. -/
def hasNumbers : Json → Bool
  | .int n => decide (minInt64 ≤ n ∧ n < 2 ^ 64)
  | .float d => d.isFinite
  | .arr items => haveNumbers items
  | .obj fields => fieldsHaveNumbers fields
  | .null | .bool _ | .str _ => true

def haveNumbers : List Json → Bool
  | [] => true
  | j :: js => hasNumbers j && haveNumbers js

def fieldsHaveNumbers : List (String × Json) → Bool
  | [] => true
  | (_, j) :: fs => hasNumbers j && fieldsHaveNumbers fs

end

end Json

namespace Node

mutual

/-- Whether JSON can hold the literals of a tree: integers of 64 bits and finite doubles. -/
def isWritable : Node → Bool
  | .integer n => fitsInt64 n
  | .float d => d.isFinite
  | .pipe lhs rhs | .dot lhs rhs | .binary _ lhs rhs | .range lhs rhs _ =>
    isWritable lhs && isWritable rhs
  | .constraint (some e) | .not e | .postfixed _ e | .subscript e => isWritable e
  | .object ns | .array ns | .functionCall _ ns => areWritable ns
  | .everything | .constraint none | .attr _ | .parent | .ellipsis | .param _ | .string _ | .bool _
  | .null => true

def areWritable : List Node → Bool
  | [] => true
  | n :: ns => isWritable n && areWritable ns

end

end Node

/-! ## Names -/

theorem BinaryOperator.ofName?_name (op : BinaryOperator) :
    BinaryOperator.ofName? op.name = some op := by
  cases op <;> rfl

theorem PostfixOperator.ofName?_name (op : PostfixOperator) :
    PostfixOperator.ofName? op.name = some op := by
  cases op <;> rfl

/-! ## Fields in any order -/

namespace Fields

variable {α : Type}

theorem insert_perm {fs : Fields α} {name : String} {value : α} (h : name ∉ fs.map Prod.fst) :
    (fs.insert name value).Perm ((name, value) :: fs) := by
  induction fs with
  | nil => exact .refl _
  | cons f fs ih =>
    obtain ⟨k, v⟩ := f
    rw [List.map_cons, List.mem_cons, not_or] at h
    rw [insert]
    split
    · exact .refl _
    · rw [if_neg h.1]
      exact (List.Perm.cons _ (ih h.2)).trans (.swap _ _ _)

theorem merge_perm {fs : Fields α} {more : List (String × α)}
    (h : ((fs ++ more).map Prod.fst).Nodup) : (fs.merge more).Perm (fs ++ more) := by
  induction more generalizing fs with
  | nil => rw [List.append_nil]; exact .refl _
  | cons f more ih =>
    have hmoved : ((f :: fs) ++ more).Perm (fs ++ f :: more) := List.perm_middle.symm
    have hnodup : (((f :: fs) ++ more).map Prod.fst).Nodup :=
      (hmoved.map Prod.fst).nodup_iff.mpr h
    have hnew : f.1 ∉ fs.map Prod.fst := by
      rw [List.cons_append, List.map_cons, List.nodup_cons, List.map_append, List.mem_append,
        not_or] at hnodup
      exact hnodup.1.1
    have hinsert : (fs.insert f.1 f.2).Perm (f :: fs) := insert_perm hnew
    have hrest := ih (((hinsert.append_right more).map Prod.fst).nodup_iff.mpr hnodup)
    exact hrest.trans ((hinsert.append_right more).trans hmoved)

/-- Pairs with names of their own are the fields of their object, in some order. -/
theorem ofList_perm {pairs : List (String × α)} (h : (pairs.map Prod.fst).Nodup) :
    (ofList pairs).Perm pairs :=
  merge_perm (by rwa [List.nil_append])

end Fields

namespace Node

theorem readFields_eq_map (fs : List (String × Json)) :
    readFields fs = fs.map fun f => (f.1, reading f.2) := by
  induction fs with
  | nil => rfl
  | cons f fs ih => rw [readFields, ih, List.map_cons]

theorem pick?_perm {fs gs : List (String × Reading)} (h : fs.Perm gs) (names : List String) :
    pick? fs names = pick? gs names := by
  have hfilter := h.filter fun f => names.contains f.1
  unfold pick?
  split
  · next hnil =>
    rw [hnil] at hfilter
    rw [← hfilter.nil_eq]
  · next f hone =>
    rw [hone] at hfilter
    rw [← List.singleton_perm.mp hfilter]
  · next hnil hone =>
    split
    · next hnil' => exact absurd (List.perm_nil.mp (hnil' ▸ hfilter)) hnil
    · next f hone' => exact absurd (List.perm_singleton.mp (hone' ▸ hfilter)) (hone f)
    · rfl

theorem ofFields?_perm {fs gs : List (String × Reading)} (h : fs.Perm gs) :
    ofFields? fs = ofFields? gs := by
  unfold ofFields?
  rw [funext (pick?_perm h)]

/-- The fields of a kind are found in what is written for it. -/
theorem node_written {kind : Kind} {fields : List (String × Json)}
    (h : ("node" :: fields.map Prod.fst).Nodup) : (reading (written kind fields)).node =
      ofFields? (("node", reading (.str kind.name)) :: fields.map fun f => (f.1, reading f.2)) := by
  have hperm : (Fields.ofList (("node", .str kind.name) :: fields)).Perm
      (("node", .str kind.name) :: fields) := Fields.ofList_perm h
  show ofFields? (readFields _) = _
  rw [readFields_eq_map, ofFields?_perm (hperm.map _), List.map_cons]

/-- What is written names its kind. -/
theorem namesKind_written {kind : Kind} {fields : List (String × Json)}
    (h : ("node" :: fields.map Prod.fst).Nodup) : namesKind (written kind fields) = true := by
  have hperm : (Fields.ofList (("node", .str kind.name) :: fields)).Perm
      (("node", .str kind.name) :: fields) := Fields.ofList_perm h
  show (Fields.ofList _).all _ = true
  rw [hperm.all_eq, List.all_cons, Bool.and_eq_true]
  refine ⟨rfl, List.all_eq_true.mpr fun f hf => ?_⟩
  have hne : f.1 ≠ "node" := by
    rintro heq
    exact (List.nodup_cons.mp h).1 (heq ▸ List.mem_map_of_mem hf)
  simp [hne]

/-! ## What was written reads as the tree -/

theorem json_reading (j : Json) : (reading j).json = j := by
  cases j <;> rfl

theorem toJson_ne_null (n : Node) : n.toJson.isNull = false := by
  cases n with
  | constraint e => cases e <;> rfl
  | _ => rfl

mutual

theorem node_toJson : ∀ {n : Node}, n.isWritable = true → (reading n.toJson).node = some n
  | .pipe lhs rhs, h => by
    simp only [isWritable, Bool.and_eq_true] at h
    rw [toJson, node_written (by simp)]
    show build .pipe [some (reading lhs.toJson), some (reading rhs.toJson)] = _
    rw [build, node_toJson h.1, node_toJson h.2]
    rfl
  | .dot lhs rhs, h => by
    simp only [isWritable, Bool.and_eq_true] at h
    rw [toJson, node_written (by simp)]
    show build .dot [some (reading lhs.toJson), some (reading rhs.toJson)] = _
    rw [build, node_toJson h.1, node_toJson h.2]
    rfl
  | .constraint none, _ => by
    rw [toJson, node_written (by simp)]
    rfl
  | .constraint (some e), h => by
    have hjson : (reading e.toJson).json.isNull = false := by rw [json_reading, toJson_ne_null]
    rw [toJson, node_written (by simp)]
    show build .constraint [some (reading e.toJson)] = _
    rw [build, Reading.optional?, hjson, node_toJson (n := e) h]
    rfl
  | .binary op lhs rhs, h => by
    simp only [isWritable, Bool.and_eq_true] at h
    rw [toJson, node_written (by simp)]
    show build .binary [some (reading (.str op.name)), some (reading lhs.toJson),
      some (reading rhs.toJson)] = _
    rw [build, node_toJson h.1, node_toJson h.2]
    show (BinaryOperator.ofName? op.name).bind _ = _
    rw [BinaryOperator.ofName?_name]
    rfl
  | .not e, h => by
    rw [toJson, node_written (by simp)]
    show build .prefixed [some (reading (.str "not")), some (reading e.toJson)] = _
    rw [build, node_toJson (n := e) h]
    rfl
  | .postfixed op e, h => by
    rw [toJson, node_written (by simp)]
    show build .postfixed [some (reading (.str op.name)), some (reading e.toJson)] = _
    rw [build, node_toJson (n := e) h]
    show (PostfixOperator.ofName? op.name).bind _ = _
    rw [PostfixOperator.ofName?_name]
    rfl
  | .object ns, h => by
    rw [toJson, node_written (by simp)]
    show build .object [some (reading (.arr (toJsons ns)))] = _
    rw [build, Reading.list?, nodes_toJsons h]
    rfl
  | .array ns, h => by
    rw [toJson, node_written (by simp)]
    show build .array [some (reading (.arr (toJsons ns)))] = _
    rw [build, Reading.list?, nodes_toJsons h]
    rfl
  | .subscript e, h => by
    rw [toJson, node_written (by simp)]
    show build .subscript [some (reading e.toJson)] = _
    rw [build, node_toJson (n := e) h]
    rfl
  | .range start stop inclusive, h => by
    simp only [isWritable, Bool.and_eq_true] at h
    rw [toJson, node_written (by simp)]
    show build .range [some (reading start.toJson), some (reading stop.toJson),
      some (reading (.bool inclusive))] = _
    rw [build, node_toJson h.1, node_toJson h.2]
    rfl
  | .functionCall name ns, h => by
    rw [toJson, node_written (by simp)]
    show build .functionCall [some (reading (.str name)), some (reading (.arr (toJsons ns)))] = _
    rw [build, Reading.list?, nodes_toJsons h]
    rfl
  | .integer n, h => by
    have hvalue : (reading (.int n)).integer? = some n := if_pos h
    rw [toJson, node_written (by simp)]
    show build .integer [some (reading (.int n))] = _
    rw [build, hvalue]
    rfl
  | .float d, h => by
    have hd : d.isFinite = true := h
    rw [toJson, if_pos hd, node_written (by simp)]
    rfl
  | .everything, _ | .attr _, _ | .parent, _ | .ellipsis, _ | .param _, _ | .string _, _
  | .bool _, _ | .null, _ => by
    rw [toJson, node_written (by simp)]
    rfl

theorem nodes_toJsons : ∀ {ns : List Node}, areWritable ns = true →
    (reading (.arr (toJsons ns))).nodes = some ns
  | [], _ => rfl
  | n :: ns, h => by
    simp only [areWritable, Bool.and_eq_true] at h
    have hrest : (readItems (toJsons ns)).mapM (·.node) = some ns := nodes_toJsons h.2
    show (readItems (toJsons (n :: ns))).mapM (·.node) = _
    rw [toJsons, readItems, List.mapM_cons, node_toJson h.1, hrest]
    rfl

end

theorem namesKind_toJson (n : Node) : namesKind n.toJson = true := by
  cases n with
  | constraint e => cases e <;> exact namesKind_written (by simp)
  | _ => exact namesKind_written (by simp)

/-- What was written for a tree reads as the tree. -/
theorem ofJson?_of_isWritable {n : Node} (h : n.isWritable = true) : ofJson? n.toJson = some n := by
  rw [ofJson?, if_pos (namesKind_toJson n), node_toJson h]

/-! ## What was read can be written -/

/-- What was read from a value with numbers that JSON has can be written. -/
structure Reading.Sound (r : Reading) : Prop where
  hasNumbers : r.json.hasNumbers = true
  node : ∀ {n}, r.node = some n → n.isWritable = true
  nodes : ∀ {ns}, r.nodes = some ns → areWritable ns = true

namespace Reading

variable {r : Reading}

theorem isWritable_integer {n : Int} (h : r.integer? = some n) :
    (Node.integer n).isWritable = true := by
  unfold integer? at h
  split at h
  · split at h
    · next hfits =>
      obtain rfl := Option.some.inj h
      exact hfits
    · cases h
  · cases h

theorem Sound.isWritable_float {d : Double} (hr : r.Sound) (h : r.double? = some d) :
    (Node.float d).isWritable = true := by
  have hnumbers := hr.hasNumbers
  unfold double? at h
  split at h
  · next n hjson =>
    obtain rfl := Option.some.inj h
    rw [hjson, Json.hasNumbers, decide_eq_true_eq, minInt64] at hnumbers
    exact Double.isFinite_ofInt (by omega)
  · next hjson =>
    obtain rfl := Option.some.inj h
    rwa [hjson] at hnumbers
  · cases h

theorem isWritable_optional {field : Option Reading} {e : Option Node}
    (hr : ∀ r, field = some r → r.Sound) (h : optional? field = some e) :
    (Node.constraint e).isWritable = true := by
  cases field with
  | none =>
    obtain rfl := Option.some.inj h
    rfl
  | some r =>
    rw [optional?] at h
    split at h
    · obtain rfl := Option.some.inj h
      rfl
    · obtain ⟨n, hn, rfl⟩ := Option.map_eq_some_iff.mp h
      exact (hr r rfl).node (n := n) hn

theorem areWritable_list {field : Option Reading} {ns : List Node}
    (hr : ∀ r, field = some r → r.Sound) (h : list? field = some ns) :
    areWritable ns = true := by
  cases field with
  | none =>
    obtain rfl := Option.some.inj h
    rfl
  | some r => exact (hr r rfl).nodes h

end Reading

/-- A tree is writable if its parts are, and each part is what a field was read as. -/
theorem isWritable_of_build {kind : Kind} {rs : List (Option Reading)} {n : Node}
    (hrs : ∀ r, some r ∈ rs → r.Sound) (h : build kind rs = some n) : n.isWritable = true := by
  unfold build at h
  split at h
  case h_6 =>
    obtain ⟨_, -, h⟩ := Option.bind_eq_some_iff.mp h
    obtain ⟨_, -, h⟩ := Option.bind_eq_some_iff.mp h
    obtain ⟨e, he, h⟩ := Option.bind_eq_some_iff.mp h
    obtain rfl := Option.some.inj h
    exact (hrs _ (by simp)).node (n := e) he
  all_goals simp only [Option.bind_eq_bind, Option.pure_def, Option.bind_eq_some_iff,
    Option.some.injEq, reduceCtorEq] at h
  case h_1 | h_2 =>
    obtain ⟨l, hl, r, hr, rfl⟩ := h
    exact Bool.and_eq_true_iff.mpr ⟨(hrs _ (by simp)).node hl, (hrs _ (by simp)).node hr⟩
  case h_4 =>
    obtain ⟨e, he, rfl⟩ := h
    exact Reading.isWritable_optional (fun r hr => hrs r (by simp [hr])) he
  case h_5 =>
    obtain ⟨_, -, op, -, l, hl, r, hr, rfl⟩ := h
    exact Bool.and_eq_true_iff.mpr ⟨(hrs _ (by simp)).node hl, (hrs _ (by simp)).node hr⟩
  case h_7 =>
    obtain ⟨_, -, op, -, e, he, rfl⟩ := h
    exact (hrs _ (by simp)).node (n := e) he
  case h_10 | h_11 =>
    obtain ⟨ns, hns, rfl⟩ := h
    exact Reading.areWritable_list (fun r hr => hrs r (by simp [hr])) hns
  case h_12 =>
    obtain ⟨e, he, rfl⟩ := h
    exact (hrs _ (by simp)).node (n := e) he
  case h_13 start stop inclusive =>
    have hparts : ∃ inclusive l, start.node = some l ∧ ∃ r, stop.node = some r ∧
        Node.range l r inclusive = n := by
      cases inclusive <;> simp only [Option.bind_eq_some_iff, Option.some.injEq] at h <;>
        exact h.imp fun _ h => h.2
    obtain ⟨_, l, hl, r, hr, rfl⟩ := hparts
    exact Bool.and_eq_true_iff.mpr ⟨(hrs _ (by simp)).node hl, (hrs _ (by simp)).node hr⟩
  case h_15 =>
    obtain ⟨name, -, ns, hns, rfl⟩ := h
    exact Reading.areWritable_list (fun r hr => hrs r (by simp [hr])) hns
  case h_17 =>
    obtain ⟨value, hvalue, rfl⟩ := h
    exact Reading.isWritable_integer hvalue
  case h_18 =>
    obtain ⟨value, hvalue, rfl⟩ := h
    exact (hrs _ (by simp)).isWritable_float hvalue
  case h_8 | h_16 | h_19 | h_20 =>
    obtain ⟨value, -, rfl⟩ := h
    rfl
  all_goals
    subst h
    rfl

theorem exists_of_pick? {fs : List (String × Reading)} {names : List String} {r : Reading}
    (h : pick? fs names = some (some r)) : ∃ name, (name, r) ∈ fs := by
  unfold pick? at h
  split at h
  · cases h
  · next f hone =>
    obtain rfl := Option.some.inj (Option.some.inj h)
    exact ⟨f.1, (List.mem_filter.mp (hone ▸ List.mem_singleton_self f)).1⟩
  · cases h

theorem exists_of_mem_mapM {α β : Type} {f : α → Option β} {xs : List α} {ys : List β} {y : β}
    (h : xs.mapM f = some ys) (hy : y ∈ ys) : ∃ x ∈ xs, f x = some y := by
  induction xs generalizing ys with
  | nil =>
    obtain rfl := Option.some.inj h
    cases hy
  | cons x xs ih =>
    simp only [List.mapM_cons, Option.bind_eq_bind, Option.pure_def, Option.bind_eq_some_iff,
      Option.some.injEq] at h
    obtain ⟨z, hz, zs, hzs, rfl⟩ := h
    rcases List.mem_cons.mp hy with rfl | hy
    · exact ⟨x, List.mem_cons_self, hz⟩
    · obtain ⟨x', hx', hf⟩ := ih hzs hy
      exact ⟨x', List.mem_cons_of_mem _ hx', hf⟩

theorem isWritable_of_ofFields? {fs : List (String × Reading)} {n : Node}
    (hfs : ∀ f ∈ fs, f.2.Sound) (h : ofFields? fs = some n) : n.isWritable = true := by
  unfold ofFields? at h
  simp only [Option.bind_eq_bind, Option.bind_eq_some_iff] at h
  obtain ⟨_, -, tag, -, kind, -, rs, hrs, h⟩ := h
  refine isWritable_of_build (fun r hr => ?_) h
  obtain ⟨names, -, hpick⟩ := exists_of_mem_mapM hrs hr
  obtain ⟨name, hmem⟩ := exists_of_pick? hpick
  exact hfs _ hmem

theorem isWritable_of_ofItems? {rs : List Reading} {n : Node} (hrs : ∀ r ∈ rs, r.Sound)
    (h : ofItems? rs = some n) : n.isWritable = true := by
  cases rs with
  | nil => cases h
  | cons tag rest =>
    unfold ofItems? at h
    obtain ⟨kind, -, h⟩ := Option.bind_eq_some_iff.mp h
    obtain ⟨_, -, h⟩ := Option.bind_eq_some_iff.mp h
    refine isWritable_of_build (fun r hr => ?_) h
    rcases List.mem_append.mp hr with hr | hr
    · obtain ⟨r', hr', heq⟩ := List.mem_map.mp hr
      obtain rfl := Option.some.inj heq
      exact hrs _ (List.mem_cons_of_mem _ hr')
    · cases (List.mem_replicate.mp hr).2

theorem areWritable_of_mapM {rs : List Reading} (hrs : ∀ r ∈ rs, r.Sound) {ns : List Node}
    (h : rs.mapM (·.node) = some ns) : areWritable ns = true := by
  induction rs generalizing ns with
  | nil =>
    obtain rfl := Option.some.inj h
    rfl
  | cons r rs ih =>
    simp only [List.mapM_cons, Option.bind_eq_bind, Option.pure_def, Option.bind_eq_some_iff,
      Option.some.injEq] at h
    obtain ⟨n, hn, rest, hrest, rfl⟩ := h
    exact Bool.and_eq_true_iff.mpr ⟨(hrs r List.mem_cons_self).node hn,
      ih (fun r hr => hrs r (List.mem_cons_of_mem _ hr)) hrest⟩

mutual

theorem sound_reading : ∀ {j : Json}, j.hasNumbers = true → (reading j).Sound
  | .arr items, h => by
    have hitems := sound_readItems h
    exact ⟨h, isWritable_of_ofItems? hitems, areWritable_of_mapM hitems⟩
  | .obj fields, h => ⟨h, isWritable_of_ofFields? (sound_readFields h), nofun⟩
  | .null, h | .bool _, h | .int _, h | .float _, h | .str _, h => ⟨h, nofun, nofun⟩

theorem sound_readItems : ∀ {js : List Json}, Json.haveNumbers js = true →
    ∀ r ∈ readItems js, r.Sound
  | [], _ => nofun
  | j :: js, h => by
    simp only [Json.haveNumbers, Bool.and_eq_true] at h
    exact List.forall_mem_cons.mpr ⟨sound_reading h.1, sound_readItems h.2⟩

theorem sound_readFields : ∀ {fs : List (String × Json)}, Json.fieldsHaveNumbers fs = true →
    ∀ f ∈ readFields fs, f.2.Sound
  | [], _ => nofun
  | (_, j) :: fs, h => by
    simp only [Json.fieldsHaveNumbers, Bool.and_eq_true] at h
    exact List.forall_mem_cons.mpr ⟨sound_reading h.1, sound_readFields h.2⟩

end

/-! ## There and back -/

/-- **Syntax trees survive writing and reading**: a tree is read from what was written for it, and
what is written for a tree that was read is a normal form of what it was read from. -/
theorem round_trip :
    (∀ n : Node, n.isWritable = true → ofJson? n.toJson = some n) ∧
      ∀ (j : Json) (n : Node), j.hasNumbers = true → ofJson? j = some n →
        ofJson? n.toJson = some n := by
  refine ⟨fun n hn => ofJson?_of_isWritable hn, fun j n hj hread => ?_⟩
  unfold ofJson? at hread
  split at hread
  · exact ofJson?_of_isWritable ((sound_reading hj).node hread)
  · cases hread

/-- The comparison `a == 1.0` with an older name of a field, with a field too many, and with its
right side as a list. -/
theorem round_trip_comparison :
    ofJson? (.obj [("operator", .str "equals"), ("node", .str "binaryOperator"),
      ("lhs", .obj [("node", .str "attribute"), ("path", .str "a"), ("position", .int 0)]),
      ("rhs", .arr [.str "float", .int 1])]) =
        some (.binary .equals (.attr "a") (.float (Double.ofInt 1))) ∧
    ofJson? (Node.binary .equals (.attr "a") (.float (Double.ofInt 1))).toJson =
      some (.binary .equals (.attr "a") (.float (Double.ofInt 1))) := by
  exact ⟨rfl, round_trip.2 (.obj [("operator", .str "equals"), ("node", .str "binaryOperator"),
    ("lhs", .obj [("node", .str "attribute"), ("path", .str "a"), ("position", .int 0)]),
    ("rhs", .arr [.str "float", .int 1])]) _ (by decide) rfl⟩

end Node
end DocQuery
