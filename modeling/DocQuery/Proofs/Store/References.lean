import DocQuery.Proofs.Engine.Correlated
import DocQuery.Proofs.Store.Answer

/-!
# The references that a collection gives

A collection gives the references of its documents along with them, and the session keeps these
(`Context.store`). They are read back as they were written (`listOfJson?_listToJson`), so **what a
session remembers of the references of documents stays right** (`Context.keepsAll_store`), given
that no two of the documents share an id to remember them under.
-/

set_option autoImplicit false

namespace DocQuery

/-! ## There and back -/

theorem ReferenceStep.ofJson?_toJson (step : ReferenceStep) : ofJson? step.toJson = some step := by
  cases step with
  | field name => rfl
  | index position =>
    have hpos : (0 : Int) ≤ position := Int.natCast_nonneg position
    show (Json.asNat? (.int position)).map index = _
    rw [Json.asNat?, if_pos hpos, Int.toNat_natCast]
    rfl
  | keyed key => rfl

namespace Reference

theorem mapM_steps (steps : List ReferenceStep) :
    (steps.map ReferenceStep.toJson).mapM ReferenceStep.ofJson? = some steps := by
  induction steps with
  | nil => rfl
  | cons step steps ih =>
    rw [List.map_cons, List.mapM_cons, ReferenceStep.ofJson?_toJson, ih]
    rfl

theorem ofJson?_toJson (r : Reference) : ofJson? r.toJson = some r := by
  obtain ⟨id, weak, path⟩ := r
  cases path with
  | nil => rfl
  | cons step path =>
    show (do some ⟨id, weak, ← ((step :: path).map ReferenceStep.toJson).mapM
      ReferenceStep.ofJson?⟩ : Option Reference) = _
    rw [mapM_steps]
    rfl

theorem listOfJson?_listToJson (rs : List Reference) : listOfJson? (listToJson rs) = some rs := by
  show (rs.map toJson).mapM ofJson? = some rs
  induction rs with
  | nil => rfl
  | cons r rs ih =>
    rw [List.map_cons, List.mapM_cons, ofJson?_toJson, ih]
    rfl

end Reference

/-! ## Merged fields -/

namespace Fields

variable {α : Type} {fs : Fields α} {more : List (String × α)} {name : String} {value : α}

theorem get?_merge (h : (fs.merge more).get? name = some value) :
    (name, value) ∈ more ∨ fs.get? name = some value := by
  induction more generalizing fs with
  | nil => exact .inr h
  | cons g more ih =>
    rcases ih h with hmore | hinsert
    · exact .inl (List.mem_cons_of_mem g hmore)
    · rw [get?_insert] at hinsert
      split at hinsert
      · next heq =>
        cases hinsert
        rw [← heq]
        exact .inl List.mem_cons_self
      · exact .inr hinsert

end Fields

/-! ## What a session remembers -/

theorem Collection.DistinctIds.eq_of_sameId {documents : List Json}
    (h : Collection.DistinctIds documents) {d e : Json} (hd : d ∈ documents) (he : e ∈ documents)
    (hde : Collection.sameId d e = true) (hed : Collection.sameId e d = true) : d = e := by
  induction documents with
  | nil => cases hd
  | cons f documents ih =>
    obtain ⟨hf, hrest⟩ := List.pairwise_cons.mp h
    rcases List.mem_cons.mp hd with rfl | hd' <;> rcases List.mem_cons.mp he with rfl | he'
    · rfl
    · rw [hf e he'] at hde
      cases hde
    · rw [hf d hd'] at hed
      cases hed
    · exact ih hrest hd' he'

theorem Collection.sameId_of_text {d e : Json} {key : String}
    (hd : d.get? "_id" = some (.str key)) (he : e.get? "_id" = some (.str key)) :
    Collection.sameId d e = true := by
  rw [sameId, hd, he]
  exact beq_self_eq_true key

/-- Documents whose ids, if they have any, are texts. -/
def TextIds (documents : List Json) : Prop :=
  ∀ d ∈ documents, ∀ id, d.get? "_id" = some id → ∃ s, id = .str s

def Json.isStr : Json → Bool
  | .str _ => true
  | _ => false

instance decidableTextIds (documents : List Json) : Decidable (TextIds documents) :=
  decidable_of_iff (∀ d ∈ documents, (d.get? "_id").all Json.isStr = true) (by
    refine forall₂_congr fun d _ => ?_
    rw [Option.all_eq_true]
    refine forall₂_congr fun id _ => ⟨fun h => ?_, ?_⟩
    · cases id with
      | str s => exact ⟨s, rfl⟩
      | _ => cases h
    · rintro ⟨s, rfl⟩
      rfl)

namespace Context

open Collection

variable {c : Context} {documents : List Json}

/-- Whatever is remembered of the references of the documents is right. -/
def KeepsAll (c : Context) (documents : List Json) : Prop :=
  ∀ d ∈ documents, c.KeepsOwn (.ofJson d)

theorem keepsAll_empty (documents : List Json) : empty.KeepsAll documents :=
  fun _ _ => keepsOwn_empty _

theorem get?_of_documentKey? (htext : TextIds documents) {d : Json} (hd : d ∈ documents)
    {key : String} (h : documentKey? (.ofJson d) = some key) :
    d.get? "_id" = some (.str key) ∧ key ≠ "" := by
  unfold documentKey? at h
  rw [Value.get?_ofJson] at h
  cases hid : d.get? "_id" with
  | none =>
    rw [hid] at h
    cases h
  | some id =>
    obtain ⟨s, rfl⟩ := htext d hd id hid
    rw [hid] at h
    change (do guard (Value.isTruthy (.string s) = true); some s : Option String) = some key at h
    by_cases hempty : s = ""
    · subst hempty
      cases h
    · have htruthy : Value.isTruthy (.string s) = true := by simpa [Value.isTruthy] using hempty
      rw [htruthy] at h
      cases h
      exact ⟨rfl, hempty⟩

/-- References are remembered for one document alone. -/
theorem eq_of_documentKey? (htext : TextIds documents) (hdistinct : DistinctIds documents)
    {d e : Json} (hd : d ∈ documents) (he : e ∈ documents) {key : String}
    (hkey : documentKey? (.ofJson d) = some key) (hkey' : documentKey? (.ofJson e) = some key) :
    d = e := by
  have hidd := (get?_of_documentKey? htext hd hkey).1
  have hide := (get?_of_documentKey? htext he hkey').1
  exact hdistinct.eq_of_sameId hd he (sameId_of_text hidd hide) (sameId_of_text hide hidd)

/-- Asking for the references of one of the documents leaves all of them right. -/
theorem KeepsAll.refersTo (h : c.KeepsAll documents) (htext : TextIds documents)
    (hdistinct : DistinctIds documents) {d : Json} (hd : d ∈ documents) (ids : List Value) :
    (c.refersTo (.ofJson d) ids).2.KeepsAll documents :=
  fun e he => (h e he).refersTo_other (fun key hkey hkey' => by
    rw [eq_of_documentKey? htext hdistinct hd he hkey hkey']) ids

/-- Storing a response leaves what is remembered of a value right if it brings no other references
under the text of its `_id`. -/
theorem KeepsOwn.store {v : Value} (h : c.KeepsOwn v) {id : SourceId} {response : FetchResponse}
    (hrefs : ∀ key found, (key, found) ∈ response.refs.getD [] → documentKey? v = some key →
      found = findReferences v) : (c.store id response).KeepsOwn v := by
  refine keepsOwn_iff.mpr fun key found hkey hfound => ?_
  rcases Fields.get?_merge hfound with hmem | hknown
  · exact hrefs key found hmem hkey
  · exact keepsOwn_iff.mp h key found hkey hknown

/-- Storing a response whose references are those of the documents leaves all of them right. -/
theorem KeepsAll.store (h : c.KeepsAll documents) {id : SourceId} {response : FetchResponse}
    (hrefs : ∀ key found, (key, found) ∈ response.refs.getD [] → ∀ d ∈ documents,
      documentKey? (.ofJson d) = some key → found = findReferences (.ofJson d)) :
    (c.store id response).KeepsAll documents :=
  fun d hd => (h d hd).store fun key found hmem hkey => hrefs key found hmem d hd hkey

end Context

/-! ## The references of a response -/

namespace Collection

open Pushdown

variable {documents : List Json}

theorem references_storedOf {d : Json} (h : IsDocument d)
    (htruthy : ((Value.ofJson d).getD "_id").isTruthy = true) :
    (unstored (storedOf d)).2 = findReferences (.ofJson d) := by
  have hunstored := unstored_storedOf h
  obtain ⟨fields, rfl⟩ := h.isObject
  have hrefs := get?_stored_references fields
  change (unstored (stored fields)).1 = _ at hunstored
  rw [hunstored, if_pos htruthy] at hrefs
  cases hstored : stored fields with
  | obj held =>
    rw [hstored] at hrefs
    change Fields.get? held Clause.referencesField = _ at hrefs
    show (unstored (stored fields)).2 = _
    rw [hstored]
    show ((Fields.get? held Clause.referencesField).bind Reference.listOfJson?).getD [] = _
    rw [hrefs]
    exact congrArg (·.getD []) (Reference.listOfJson?_listToJson _)
  | _ =>
    rw [hstored] at hrefs
    cases hrefs

/-- The references of a response are those of the documents. -/
theorem references_respond (hdocuments : ∀ d ∈ documents, IsDocument d) (htext : TextIds documents)
    (hdistinct : DistinctIds documents) {held : List Json}
    (hheld : ∀ d ∈ held, d ∈ documents.map storedOf) {start : Nat} {key : String}
    {found : List Reference} (hmem : (key, found) ∈ (respond held start).refs.getD []) {d : Json}
    (hd : d ∈ documents) (hkey : Context.documentKey? (.ofJson d) = some key) :
    found = findReferences (.ofJson d) := by
  have hpair : (key, found) ∈ held.filterMap fun d =>
      (stringId? d).map (·, (unstored d).2) := (Fields.mem_merge hmem).resolve_right List.not_mem_nil
  obtain ⟨h, hh, hpair⟩ := List.mem_filterMap.mp hpair
  obtain ⟨s, hs, hpair⟩ := Option.map_eq_some_iff.mp hpair
  cases hpair
  obtain ⟨e, he, rfl⟩ := List.mem_map.mp (hheld h hh)
  obtain ⟨hid, hne⟩ := Context.get?_of_documentKey? htext hd hkey
  -- both documents have the key for their id, so they are one
  have hide : e.get? "_id" = some (.str key) := by
    rw [stringId?, get?_storedOf_id (hdocuments e he)] at hs
    cases hget : e.get? "_id" with
    | none =>
      rw [hget] at hs
      cases hs
    | some id =>
      obtain ⟨t, rfl⟩ := htext e he id hget
      rw [hget] at hs
      cases hs
      rfl
  obtain rfl := hdistinct.eq_of_sameId hd he (sameId_of_text hid hide) (sameId_of_text hide hid)
  refine references_storedOf (hdocuments d hd) ?_
  have hget : (Value.ofJson d).getD "_id" = .string key := by
    rw [Value.getD, Value.get?_ofJson, hid]
    rfl
  rw [hget]
  simpa [Value.isTruthy] using hne

theorem mem_select {selector : Json} {ds found : List Json} (h : select selector ds = .ok found) :
    ∀ d ∈ found, d ∈ ds := by
  induction ds generalizing found with
  | nil =>
    cases h
    exact fun d hd => hd
  | cons e ds ih =>
    obtain ⟨accepted, -, h⟩ := exists_of_bind_eq_ok h
    obtain ⟨rest, hrest, h⟩ := exists_of_bind_eq_ok h
    cases h
    intro d hd
    cases accepted with
    | false => exact List.mem_cons_of_mem e (ih hrest d hd)
    | true =>
      rcases List.mem_cons.mp hd with rfl | hd
      · exact List.mem_cons_self
      · exact List.mem_cons_of_mem e (ih hrest d hd)

theorem mem_sortDocuments {keys : List (String × Direction)} {ds : List Json} {d : Json}
    (h : d ∈ sortDocuments keys ds) : d ∈ ds := by
  obtain ⟨keyed, hkeyed, rfl⟩ := List.mem_map.mp h
  obtain ⟨e, he, rfl⟩ := List.mem_map.mp (Sorting.mem_sortBy.mp hkeyed)
  exact he

theorem mem_window {offset : Nat} {limit : Option Nat} {ds : List Json} {d : Json}
    (h : d ∈ window offset limit ds) : d ∈ ds := by
  cases limit with
  | none => exact List.mem_of_mem_drop h
  | some n => exact List.mem_of_mem_drop (List.mem_of_mem_take h)

/-- What a collection answers are some of its documents. -/
theorem exists_respond_of_answer {c : Collection} {query : StoreQuery} {response : FetchResponse}
    (h : c.answer query = .ok response) :
    ∃ held start, response = respond held start ∧ ∀ d ∈ held, d ∈ c.documents := by
  unfold answer at h
  cases hselector : query.selector with
  | none =>
    rw [hselector] at h
    cases h
    exact ⟨[], 0, rfl, fun _ hd => absurd hd List.not_mem_nil⟩
  | some selector =>
    rw [hselector] at h
    dsimp only at h
    cases hfound : select selector c.documents with
    | error err =>
      rw [hfound] at h
      cases h
    | ok found =>
      rw [hfound] at h
      change (if _ then _ else _) = _ at h
      split at h
      · cases h
        exact ⟨_, _, rfl, fun d hd => mem_select hfound d (mem_sortDocuments (mem_window hd))⟩
      · cases h
        exact ⟨found, 0, rfl, mem_select hfound⟩

/-- Whatever is fetched from a collection leaves what is remembered right. -/
theorem keepsAll_fetched (hdocuments : ∀ d ∈ documents, IsDocument d) (htext : TextIds documents)
    (hdistinct : DistinctIds documents) {pushdown : Bool} {spec : FetchSpec}
    {response : FetchResponse}
    (h : (⟨pushdown, documents.map storedOf⟩ : Collection).fetch spec = .ok response)
    {context : Context} (hcontext : context.KeepsAll documents) (id : SourceId) :
    (context.store id response).KeepsAll documents := by
  unfold Collection.fetch at h
  cases hquery : StoreQuery.ofSpec spec with
  | error err =>
    rw [hquery] at h
    cases h
  | ok query =>
    rw [hquery] at h
    obtain ⟨held, start, rfl, hheld⟩ := exists_respond_of_answer h
    exact hcontext.store fun key found hmem d hd hkey =>
      references_respond hdocuments htext hdistinct hheld hmem hd hkey

end Collection
end DocQuery
