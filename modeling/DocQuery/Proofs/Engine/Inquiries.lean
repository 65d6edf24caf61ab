import DocQuery.Proofs.Engine.Dialogue
import DocQuery.Proofs.Store.Inserts
import DocQuery.Query

/-!
# What `references()` is answered from

A run asks `references()` of one value after the other (`Dialogue.inquiries`), and it remembers what
it found. What it remembers goes by the text of an `_id`, so what it answers depends on all that it
met under that text: **the references that came last with a fetch, or else those of the value asked
first** (`Inquiry.answer_eq`). The invariant is `Remembers`; asking and fetching keep it.

It follows that `references()` is decided by the value it is asked of as long as nothing else with
the same text for its `_id` has other references (`inquiries_decided`). Where something has, the
answer is about the other one: `1` and `"1"` are two ids with one text
(`inquiries_mistaken`).
-/

set_option autoImplicit false

namespace DocQuery

/-! ## Keys -/

theorem String.ofList_ne_empty {cs : List Char} (h : cs ≠ []) : String.ofList cs ≠ "" := by
  simpa [← String.toList_inj] using h

theorem Double.text_ne_empty (d : Double) : d.text ≠ "" := by
  have hpoint (digits : List Char) (whole : Nat) : withPoint digits whole ≠ "" :=
    String.ofList_ne_empty (by simp)
  have hdigits (n : Digits) : n.text ≠ "" := by
    unfold Digits.text
    dsimp only
    split
    · split <;> exact hpoint _ _
    · split <;> simp
  unfold text
  split
  · simp
  · simp [hdigits]

theorem Json.render_ne_empty (j : Json) : j.render ≠ "" := by
  cases j with
  | null => simp [render]
  | bool b => cases b <;> simp [render]
  | int n =>
    show n.repr ≠ ""
    cases n with
    | ofNat m => exact String.ofList_ne_empty (List.ne_nil_of_length_pos Nat.length_toDigits_pos)
    | negSucc m => simp [Int.repr]
  | float d =>
    rw [render, doubleText]
    split
    · exact d.text_ne_empty
    · simp
  | str s => exact String.ofList_ne_empty (by simp)
  | arr items => simp [render, arrayText, enclose]
  | obj fields => simp [render, objectText, enclose]

/-- Nothing is remembered under the empty text. -/
theorem Context.documentKey?_ne_empty {v : Value} {key : String} (h : documentKey? v = some key) :
    key ≠ "" := by
  unfold documentKey? at h
  obtain ⟨id, -, h⟩ := Option.bind_eq_some_iff.mp h
  obtain ⟨_, hguard, h⟩ := Option.bind_eq_some_iff.mp h
  have htruthy : id.isTruthy = true := by
    cases hid : id.isTruthy with
    | true => rfl
    | false =>
      rw [hid] at hguard
      cases hguard
  cases id with
  | string s =>
    cases h
    simpa [Value.isTruthy] using htruthy
  | _ =>
    cases h
    exact Json.render_ne_empty _

/-- A document whose id is a text that is not empty is remembered under it. -/
theorem Context.documentKey?_of_stringId? {d : Json} {s : String}
    (h : Collection.stringId? d = some s) (hempty : s ≠ "") :
    documentKey? (.ofJson d) = some s := by
  have htruthy : Value.isTruthy (.string s) = true := by simpa [Value.isTruthy] using hempty
  unfold documentKey?
  rw [Value.get?_ofJson, Collection.get?_of_stringId? h]
  show (do guard (Value.isTruthy (.string s) = true); some s) = some s
  rw [htruthy]
  rfl

namespace Fields

variable {α : Type}

/-- Of many pairs with one name the last one counts. -/
theorem get?_merge_eq (fs : Fields α) (more : List (String × α)) (name : String) :
    (fs.merge more).get? name =
      ((more.reverse.find? (·.1 == name)).map (·.2)).or (fs.get? name) := by
  induction more generalizing fs with
  | nil => rfl
  | cons f more ih =>
    obtain ⟨k, v⟩ := f
    show ((fs.insert k v).merge more).get? name = _
    rw [ih, get?_insert, List.reverse_cons, List.find?_append, List.find?_singleton]
    cases more.reverse.find? (·.1 == name) with
    | some f => rfl
    | none =>
      by_cases hk : k = name
      · rw [if_pos hk, if_pos (by simpa using hk)]
        rfl
      · rw [if_neg hk, if_neg (by simpa using hk)]
        rfl

end Fields

/-! ## Inquiries -/

/-- A question to `references()`: of which value, for which ids, and in which session. -/
structure Inquiry where
  subject : Value
  ids : List Value
  session : Session

namespace Inquiry

/-- How the session answers. -/
def answer (i : Inquiry) : Bool := (i.session.context.refersTo i.subject i.ids).1

end Inquiry

/-- What is asked of values while a dialogue is played, in order. -/
def Dialogue.inquiries {α : Type} (fetcher : Fetcher) : Dialogue α → Session → List Inquiry
  | done _, _ | fail _, _ => []
  | look next, σ => (next σ.context).inquiries fetcher σ
  | refer subject ids next, σ =>
    ⟨subject, ids, σ⟩ :: (next (σ.context.refersTo subject ids).1).inquiries fetcher
      { σ with context := (σ.context.refersTo subject ids).2 }
  | fetch id spec next, σ =>
    match fetcher σ.fetches.length spec with
    | .ok response => next.inquiries fetcher (Engine.fetched σ id spec response)
    | .error _ => []

/-- What is asked in a run of a plan. -/
def Operation.inquiries (fetcher : Fetcher) (o : Operation) : List Inquiry :=
  (Dialogue.exec o .root).inquiries fetcher .empty

/-! ## What is remembered -/

namespace FetchRecord

/-- The references that came with a fetch. -/
def references (r : FetchRecord) : List (String × List Reference) :=
  match r.answer with
  | .ok response => response.refs.getD []
  | .error _ => []

/-- The documents that came with a fetch. -/
def documents (r : FetchRecord) : List Value :=
  match r.answer with
  | .ok response => response.results.map Value.ofJson
  | .error _ => []

end FetchRecord

/-- The references known under a text: those that came last with a fetch, or those of the value with
that text for its `_id` that was asked first. -/
def known (fetches : List FetchRecord) (earlier : List Inquiry) (key : String) :
    Option (List Reference) :=
  (((fetches.flatMap FetchRecord.references).reverse.find? (·.1 == key)).map (·.2)).or
    ((earlier.find? fun i => Context.documentKey? i.subject == some key).map
      fun i => findReferences i.subject)

/-- A session that remembers what the fetches and the inquiries so far made known, and nothing else.
-/
structure Remembers (fetcher : Fetcher) (earlier : List Inquiry) (σ : Session) : Prop where
  references : ∀ key, σ.context.references.get? key = known σ.fetches earlier key
  made : ∀ r ∈ σ.fetches, ∃ n, r.answer = fetcher n r.spec

namespace Remembers

variable {fetcher : Fetcher} {earlier : List Inquiry} {σ : Session}

theorem empty : Remembers fetcher [] .empty := ⟨fun _ => rfl, fun _ h => absurd h List.not_mem_nil⟩

theorem refer (h : Remembers fetcher earlier σ) (subject : Value) (ids : List Value) :
    Remembers fetcher (earlier ++ [⟨subject, ids, σ⟩])
      { σ with context := (σ.context.refersTo subject ids).2 } := by
  refine ⟨fun key => ?_, h.made⟩
  have hbefore := h.references key
  have hafter : known σ.fetches (earlier ++ [⟨subject, ids, σ⟩]) key =
      (known σ.fetches earlier key).or
        (if Context.documentKey? subject == some key then some (findReferences subject)
          else none) := by
    rw [known, known, List.find?_append, List.find?_singleton, Option.or_assoc]
    congr 1
    cases earlier.find? fun i => Context.documentKey? i.subject == some key with
    | some i => rfl
    | none =>
      dsimp only
      split <;> rfl
  show (σ.context.refersTo subject ids).2.references.get? key = _
  rw [hafter, ← hbefore]
  unfold Context.refersTo
  cases hkey : Context.documentKey? subject with
  | none => simp
  | some own =>
    dsimp only
    unfold Context.referencesOf
    cases hfound : σ.context.references.get? own with
    | some found =>
      dsimp only
      by_cases heq : own = key
      · rw [← heq, hfound]
        rfl
      · simp [heq]
    | none =>
      dsimp only
      rw [Fields.get?_insert]
      by_cases heq : own = key
      · rw [← heq, hfound]
        simp
      · simp [heq]

theorem fetch (h : Remembers fetcher earlier σ) {id : SourceId} {spec : FetchSpec}
    {response : FetchResponse} (hfetch : fetcher σ.fetches.length spec = .ok response) :
    Remembers fetcher earlier (Engine.fetched σ id spec response) := by
  refine ⟨fun key => ?_, fun r hr => ?_⟩
  · show (Fields.merge σ.context.references (response.refs.getD [])).get? key = _
    rw [Fields.get?_merge_eq, h.references, known, known, Engine.fetched, List.flatMap_append,
      List.reverse_append, List.find?_append]
    have hlast : List.flatMap FetchRecord.references [⟨id, spec, .ok response⟩] =
        response.refs.getD [] := List.flatMap_singleton _ _
    rw [hlast]
    cases (response.refs.getD []).reverse.find? (·.1 == key) <;> rfl
  · rcases List.mem_append.mp hr with hr | hr
    · exact h.made r hr
    · obtain rfl := List.mem_singleton.mp hr
      exact ⟨_, hfetch.symm⟩

/-- **At every inquiry the session remembers what was made known before.** -/
theorem inquiries {α : Type} {d : Dialogue α} {before later : List Inquiry} {i : Inquiry}
    (h : Remembers fetcher earlier σ) (hasked : d.inquiries fetcher σ = before ++ i :: later) :
    Remembers fetcher (earlier ++ before) i.session := by
  induction d generalizing earlier σ before with
  | done a => simp [Dialogue.inquiries] at hasked
  | fail e => simp [Dialogue.inquiries] at hasked
  | look next ih => exact ih _ h hasked
  | refer subject ids next ih =>
    rw [Dialogue.inquiries] at hasked
    cases before with
    | nil =>
      cases hasked
      rw [List.append_nil]
      exact h
    | cons first before =>
      obtain ⟨rfl, hrest⟩ := List.cons.inj hasked
      rw [List.append_cons]
      exact ih _ (h.refer subject ids) hrest
  | fetch id spec next ih =>
    rw [Dialogue.inquiries] at hasked
    cases hfetch : fetcher σ.fetches.length spec with
    | error e =>
      rw [hfetch] at hasked
      simp at hasked
    | ok response =>
      rw [hfetch] at hasked
      exact ih (h.fetch hfetch) hasked

/-- A fetch that fails makes nothing known. -/
theorem fetchFailed (h : Remembers fetcher earlier σ) {id : SourceId} {spec : FetchSpec}
    {e : FetchError} (hfetch : fetcher σ.fetches.length spec = .error e) :
    Remembers fetcher earlier ⟨σ.context, σ.fetches ++ [⟨id, spec, .error e⟩]⟩ := by
  refine ⟨fun key => ?_, fun r hr => ?_⟩
  · have hnothing : List.flatMap FetchRecord.references [⟨id, spec, .error e⟩] = [] := rfl
    rw [known, List.flatMap_append, hnothing, List.append_nil]
    exact h.references key
  · rcases List.mem_append.mp hr with hr | hr
    · exact h.made r hr
    · obtain rfl := List.mem_singleton.mp hr
      exact ⟨_, hfetch.symm⟩

/-- **At the end of a run the session remembers what all its inquiries and fetches made known.** -/
theorem within {α : Type} (d : Dialogue α) (h : Remembers fetcher earlier σ) :
    Remembers fetcher (earlier ++ d.inquiries fetcher σ) ((d.within fetcher).run.run σ).2 := by
  induction d generalizing earlier σ with
  | done a =>
    rw [Dialogue.inquiries, List.append_nil]
    exact h
  | fail e =>
    rw [Dialogue.inquiries, List.append_nil]
    exact h
  | look next ih => exact ih _ h
  | refer subject ids next ih =>
    rw [Dialogue.inquiries, List.append_cons]
    exact ih _ (h.refer subject ids)
  | fetch id spec next ih =>
    rw [Dialogue.inquiries]
    have hrun : ((Dialogue.fetch id spec next).within fetcher).run.run σ =
        (Run.receive σ id spec (fetcher σ.fetches.length spec) >>= fun _ =>
          next.within fetcher).run.run σ := rfl
    rw [hrun]
    cases hfetch : fetcher σ.fetches.length spec with
    | error e =>
      rw [List.append_nil]
      exact h.fetchFailed hfetch
    | ok response => exact ih (h.fetch hfetch)

end Remembers

/-! ## How it is answered -/

/-- What the answer to an inquiry goes by. -/
def Inquiry.found (i : Inquiry) (earlier : List Inquiry) : List Reference :=
  ((Context.documentKey? i.subject).bind (known i.session.fetches earlier)).getD
    (findReferences i.subject)

/-- **`references()` looks for the ids among what is known of the text of the `_id`**, or else among
the references of the value itself. -/
theorem Inquiry.answer_eq {fetcher : Fetcher} {earlier : List Inquiry} {i : Inquiry}
    (h : Remembers fetcher earlier i.session) :
    i.answer = ((i.subject.getD "_id").isTruthy &&
      (i.found earlier).any fun r => i.ids.any fun id => id.asString? == some r.id) := by
  rw [answer, found, ← Context.documentKey?_isSome, Context.refersTo]
  cases hkey : Context.documentKey? i.subject with
  | none => rfl
  | some key =>
    dsimp only
    rw [Context.referencesOf, h.references]
    rw [Option.bind_some]
    cases known i.session.fetches earlier key <;> rfl

/-- References that come with a response are those of documents in it. The empty text is the key of
no document. -/
def FetchResponse.SuppliesOwn (response : FetchResponse) : Prop :=
  ∀ key found, (key, found) ∈ response.refs.getD [] → key = "" ∨ ∃ d ∈ response.results,
    Context.documentKey? (.ofJson d) = some key ∧ found = findReferences (.ofJson d)

/-- A fetcher whose references, if it gives any, are those of the documents that it gives. -/
def Fetcher.SuppliesOwn (fetcher : Fetcher) : Prop :=
  ∀ n spec response, fetcher n spec = .ok response → response.SuppliesOwn

theorem Fetcher.suppliesOwn_fullScan (documents : List Json) :
    (fullScan documents).SuppliesOwn := by
  rintro n spec response h key found hmem
  cases h
  cases hmem

/-- A collection gives the references of its documents along with them. -/
theorem Collection.suppliesOwn_fetcher {c : Collection} (built : c.Built) :
    c.fetcher.SuppliesOwn := by
  intro n spec response hfetcher key found hmem
  have hanswer : ∃ query, c.answer query = .ok response := by
    unfold fetcher fetch at hfetcher
    cases hquery : StoreQuery.ofSpec spec with
    | error e =>
      rw [hquery] at hfetcher
      cases hfetcher
    | ok query =>
      rw [hquery] at hfetcher
      change (c.answer query).mapError FetchError.store = _ at hfetcher
      refine ⟨query, ?_⟩
      cases hanswer : c.answer query with
      | error e =>
        rw [hanswer] at hfetcher
        cases hfetcher
      | ok answered =>
        rw [hanswer] at hfetcher
        cases hfetcher
        rfl
  obtain ⟨query, hanswer⟩ := hanswer
  obtain ⟨held, start, rfl, hheld⟩ := exists_respond_of_answer hanswer
  have hpair : (key, found) ∈ held.filterMap fun d => (stringId? d).map (·, (unstored d).2) :=
    (Fields.mem_merge hmem).resolve_right List.not_mem_nil
  obtain ⟨d, hd, hpair⟩ := List.mem_filterMap.mp hpair
  obtain ⟨s, hs, hpair⟩ := Option.map_eq_some_iff.mp hpair
  cases hpair
  obtain ⟨fields, rfl⟩ := built.stored (hheld d hd)
  have hgiven : IsDocument (.obj (Fields.erase fields Clause.referencesField)) :=
    isDocument_of_given? (show given? (.obj fields) = some _ from rfl)
  rw [← storedOf_given fields] at hd hs ⊢
  rw [stringId?_storedOf hgiven] at hs
  by_cases hempty : key = ""
  · exact .inl hempty
  · have htruthy := (isTruthy_of_stringId? hs).mpr hempty
    refine .inr ⟨_, List.mem_map_of_mem hd, ?_, ?_⟩
    · rw [unstored_storedOf hgiven]
      exact Context.documentKey?_of_stringId? hs hempty
    · rw [unstored_storedOf hgiven, unstored_references hgiven, if_pos htruthy]

/-- The values that were met before an inquiry: the documents fetched, and the values asked. -/
def met (earlier : List Inquiry) (i : Inquiry) : List Value :=
  i.session.fetches.flatMap FetchRecord.documents ++ earlier.map Inquiry.subject

/-- No other references were met under the text of the `_id` of a value that is asked. -/
def Inquiry.Unmistaken (i : Inquiry) (earlier : List Inquiry) : Prop :=
  ∀ v ∈ met earlier i, (Context.documentKey? v).isSome →
    Context.documentKey? v = Context.documentKey? i.subject →
      findReferences v = findReferences i.subject

instance Inquiry.decidableUnmistaken (i : Inquiry) (earlier : List Inquiry) :
    Decidable (i.Unmistaken earlier) :=
  inferInstanceAs (Decidable (∀ v ∈ met earlier i, _ → _ → _))

section

variable {fetcher : Fetcher} {earlier : List Inquiry} {i : Inquiry} {key : String}
  {references : List Reference}

/-- References that a fetch brought are those of a document that came with it. -/
theorem Remembers.exists_document (h : Remembers fetcher earlier i.session)
    (hsupplies : fetcher.SuppliesOwn) (hempty : key ≠ "")
    (hbrought : (key, references) ∈ i.session.fetches.flatMap FetchRecord.references) :
    ∃ v ∈ i.session.fetches.flatMap FetchRecord.documents,
      Context.documentKey? v = some key ∧ references = findReferences v := by
  obtain ⟨record, hrecord, hpair⟩ := List.mem_flatMap.mp hbrought
  obtain ⟨n, hmade⟩ := h.made record hrecord
  unfold FetchRecord.references at hpair
  cases hanswer : record.answer with
  | error e =>
    rw [hanswer] at hpair
    cases hpair
  | ok response =>
    rw [hanswer] at hpair hmade
    obtain ⟨d, hd, hkey, hfound⟩ :=
      (hsupplies n _ response hmade.symm key references hpair).resolve_left hempty
    refine ⟨_, List.mem_flatMap.mpr ⟨record, hrecord, ?_⟩, hkey, hfound⟩
    rw [FetchRecord.documents, hanswer]
    exact List.mem_map_of_mem hd

/-- References that are known under a text are those of a value met under it. -/
theorem Remembers.exists_met (h : Remembers fetcher earlier i.session)
    (hsupplies : fetcher.SuppliesOwn) (hempty : key ≠ "")
    (hknown : known i.session.fetches earlier key = some references) :
    ∃ v ∈ met earlier i, Context.documentKey? v = some key ∧ references = findReferences v := by
  rcases Option.or_eq_some_iff.mp hknown with hbrought | ⟨-, hasked⟩
  · obtain ⟨⟨name, _⟩, hpair, rfl⟩ := Option.map_eq_some_iff.mp hbrought
    obtain rfl : name = key := beq_iff_eq.mp
      (List.find?_some (p := fun f : String × List Reference => f.1 == key) hpair)
    obtain ⟨v, hv, hfound⟩ := h.exists_document hsupplies hempty
      (List.mem_reverse.mp (List.mem_of_find?_eq_some hpair))
    exact ⟨v, List.mem_append_left _ hv, hfound⟩
  · obtain ⟨j, hj, rfl⟩ := Option.map_eq_some_iff.mp hasked
    have hkey := beq_iff_eq.mp
      (List.find?_some (p := fun i : Inquiry => Context.documentKey? i.subject == some key) hj)
    exact ⟨_, List.mem_append_right _ (List.mem_map_of_mem (List.mem_of_find?_eq_some hj)), hkey,
      rfl⟩

theorem Inquiry.found_eq (hsupplies : fetcher.SuppliesOwn)
    (h : Remembers fetcher earlier i.session) (hmet : i.Unmistaken earlier) :
    i.found earlier = findReferences i.subject := by
  unfold found
  cases hkey : Context.documentKey? i.subject with
  | none => rfl
  | some key =>
    rw [Option.bind_some]
    cases hknown : known i.session.fetches earlier key with
    | none => rfl
    | some references =>
      obtain ⟨v, hv, hvkey, rfl⟩ :=
        h.exists_met hsupplies (Context.documentKey?_ne_empty hkey) hknown
      exact hmet v hv (Option.isSome_of_eq_some hvkey) (hvkey.trans hkey.symm)

end

/-- **How `references()` is decided**, in every run of every plan. Each answer goes by what was last
made known under the text of the value's `_id`. Given a fetcher that supplies nothing but the
references of its documents, it is right about the value it is asked of if no other references were
met under that text before. -/
theorem inquiries_decided (fetcher : Fetcher) (o : Operation) :
    Remembers fetcher (o.inquiries fetcher) ((Engine.exec fetcher o .root).run.run .empty).2 ∧
    ∀ earlier i later, o.inquiries fetcher = earlier ++ i :: later →
      i.answer = ((i.subject.getD "_id").isTruthy &&
        (i.found earlier).any fun r => i.ids.any fun id => id.asString? == some r.id) ∧
      (fetcher.SuppliesOwn → i.Unmistaken earlier →
        (i.answer = true ↔ (i.subject.getD "_id").isTruthy = true ∧
          ∃ r ∈ findReferences i.subject, .string r.id ∈ i.ids)) := by
  refine ⟨?_, fun earlier i later hasked => ?_⟩
  · rw [← Dialogue.within_exec]
    exact Remembers.empty.within (Dialogue.exec o .root)
  have hremembers : Remembers fetcher earlier i.session := Remembers.empty.inquiries hasked
  have hanswer := Inquiry.answer_eq hremembers
  refine ⟨hanswer, fun hsupplies hmet => ?_⟩
  have hstring : ∀ (id : Value) (s : String), id.asString? = some s ↔ id = .string s := by
    intro id s
    cases id <;> simp [Value.asString?]
  rw [hanswer, Inquiry.found_eq hsupplies hremembers hmet, Bool.and_eq_true, List.any_eq_true]
  simp [hstring]

/-- Two documents whose ids are two texts, asked one after the other. -/
theorem inquiries_decided_second :
    let documents : List Json := [.obj [("_id", .str "a"), ("r", .obj [("_ref", .str "x")])],
      .obj [("_id", .str "b")]]
    let o : Operation :=
      .pipe [.source 1, .filter (.call .references [.literal (.string "x")])] none
    ∃ earlier i, o.inquiries (.fullScan documents) = earlier ++ i :: [] ∧
      i.subject = .ofJson (.obj [("_id", .str "b")]) ∧
      (Fetcher.fullScan documents).SuppliesOwn ∧ i.Unmistaken earlier ∧
      (i.answer = true ↔ (i.subject.getD "_id").isTruthy = true ∧
        ∃ r ∈ findReferences i.subject, .string r.id ∈ i.ids) := by
  intro documents o
  obtain ⟨earlier, i, hasked, hsubject, hmet⟩ : ∃ earlier i,
      o.inquiries (.fullScan documents) = earlier ++ i :: [] ∧
        i.subject = .ofJson (.obj [("_id", .str "b")]) ∧ i.Unmistaken earlier :=
    ⟨[_], _, by with_unfolding_all rfl, by with_unfolding_all rfl, by decide +kernel⟩
  have hsupplies := Fetcher.suppliesOwn_fullScan documents
  exact ⟨earlier, i, hasked, hsubject, hsupplies, hmet,
    ((inquiries_decided _ o).2 _ _ _ hasked).2 hsupplies hmet⟩

/-- Two documents whose ids are an integer and its text. The second refers to nothing, and is taken
for the first. -/
theorem inquiries_mistaken :
    let documents : List Json := [.obj [("_id", .int 1), ("r", .obj [("_ref", .str "x")])],
      .obj [("_id", .str "1")]]
    let q : Query := ⟨.filtered (.functionCall "references" [.string "x"]), [], none⟩
    (Fetcher.fullScan documents).SuppliesOwn ∧
      q.result (.fullScan documents) = .ok (.arr documents) ∧
      ∃ o earlier i, q.operation = .ok o ∧ o.inquiries (.fullScan documents) = earlier ++ i :: [] ∧
        i.answer = true ∧ findReferences i.subject = [] := by
  intro documents q
  exact ⟨Fetcher.suppliesOwn_fullScan _, by with_unfolding_all rfl, _, [_], _,
    by with_unfolding_all rfl, by with_unfolding_all rfl, by with_unfolding_all rfl,
    by with_unfolding_all rfl⟩

end DocQuery
