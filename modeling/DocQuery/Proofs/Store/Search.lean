import DocQuery.Proofs.Match.Assignment
import DocQuery.Proofs.Pattern.Storage
import DocQuery.Proofs.Pattern.Wildcard
import DocQuery.Proofs.Store.Filter
import DocQuery.Proofs.Store.Operand

/-!
# Searches as regular expressions

A search for terms is sent to a store as one regular expression for each term, found anywhere in the
field and in either letter case. The engine wants more: a word of its own for each term, which the
term is or begins. **In ASCII no document that the engine finds is dropped** (`search_keeps`): the part
of a word that suits a term is a text that the term covers (`covers_of_suits`).

A term may be too large for its expression to be compiled; then the store has no answer, and this is
the only way in which a document that is found can miss being accepted (`Admits`).
-/

set_option autoImplicit false

namespace DocQuery

namespace Value

/-! ## Texts as JSON -/

theorem eq_str_of_ofJson {j : Json} {text : String} (h : ofJson j = .string text) :
    j = .str text := by
  cases j with
  | str s => exact congrArg Json.str (string.inj h)
  | int n =>
    rw [ofJson] at h
    split at h <;> cases h
  | _ => cases h

theorem eq_str_of_ofJson? {j : Option Json} {text : String}
    (h : ofJson? j = .string text) : j = some (.str text) := by
  cases j with
  | none => cases h
  | some j => exact congrArg some (eq_str_of_ofJson h)

/-! ## Which searches -/

/-- Whether a value is no text, or one in ASCII. -/
def isAsciiText (v : Value) : Bool := v.asString?.all fun text => Text.isAscii text.toList

/-- Whether the texts that are searched in a value are in ASCII. -/
def isAsciiCandidate : Value → Bool
  | array items => items.all isAsciiText
  | v => v.isAsciiText

end Value

namespace Operation

/-- A search in fields whose names the store reads as the engine does. Nothing is asked of what is no
field. -/
def isPlainSubject : Operation → Bool
  | array elements => elements.all fun element => (element.fieldName?.isNone || element.isPlainOperand)
  | o => o.fieldName?.isNone || o.isPlainOperand

end Operation

/-! ## Terms as texts with wildcards -/

namespace Clause

open Pattern (Covers wildcardText)

variable {term text : String} {terms : List String} {word : List Char}

theorem termRegex_eq (term : String) :
    termRegex term = String.ofList (wildcardText (squeeze (Text.trim term.toList))) := rfl

/-- One star stands for what several stars do. -/
theorem covers_squeeze {cs ds : List Char} (h : Covers cs ds) : Covers (squeeze cs) ds := by
  induction cs using squeeze.induct generalizing ds with
  | case1 rest ih =>
    rw [squeeze]
    refine ih ?_
    cases h with
    | char hstar => exact absurd rfl hstar
    | @star skipped _ _ hline hlater =>
      cases hlater with
      | char hstar => exact absurd rfl hstar
      | @star skipped' _ ds hline' hlater =>
        rw [← List.append_assoc]
        refine .star (fun hmem => ?_) hlater
        exact (List.mem_append.mp hmem).elim hline hline'
  | case2 c rest hone ih =>
    rw [squeeze]
    · cases h with
      | char hstar hsame hlater => exact .char hstar hsame (ih hlater)
      | star hline hlater => exact .star hline (ih hlater)
    · exact hone
  | case3 =>
    exact h

/-- A text covers every line that is the same but for letter case. -/
theorem covers_of_fold {cs ds : List Char} (hascii : Text.isAscii cs = true) (hline : '\n' ∉ ds)
    (h : cs.map Text.fold = ds.map Text.fold) : Covers cs ds := by
  induction cs generalizing ds with
  | nil =>
    obtain rfl : ds = [] := by simpa using h.symm
    exact .nil
  | cons c cs ih =>
    cases ds with
    | nil => cases h
    | cons d ds =>
      obtain ⟨hc, hcs⟩ := List.forall_mem_cons.mp (Text.isAscii_iff.mp hascii)
      obtain ⟨hfirst, hlater⟩ := List.cons.inj h
      obtain ⟨hd, hds⟩ := not_or.mp (mt List.mem_cons.mpr hline)
      have hrest := ih (Text.isAscii_iff.mpr hcs) hds hlater
      by_cases hstar : c = '*'
      · subst hstar
        have hskipped : '\n' ∉ [d] := by simpa using hd
        exact .star hskipped hrest
      · exact .char hstar (Text.mem_variants hc hfirst) hrest

/-- A term covers the part of a word for which the word suits it. -/
theorem covers_of_suits (hterm : Text.isAscii term.toList = true) (hword : Text.isAscii word = true)
    (hline : '\n' ∉ word) (h : Match.Term.Suits term (Text.lower word)) :
    ∃ part, part <+: word ∧ Covers (squeeze (Text.trim term.toList)) part := by
  have htrim := Text.isAscii_of_subset (Text.trim_subset term.toList) hterm
  unfold Match.Term.Suits at h
  rw [Text.lower_eq_map_fold htrim, Text.lower_eq_map_fold hword] at h
  rcases h with heq | ⟨stem, heq, hprefix⟩
  · exact ⟨word, List.prefix_refl word, covers_squeeze (covers_of_fold htrim hline heq.symm)⟩
  · obtain ⟨cs, last, htext, rfl, hlast⟩ := List.map_eq_append_iff.mp heq
    obtain ⟨tail, htail⟩ := hprefix
    obtain ⟨part, later, rfl, hpart, -⟩ := List.map_eq_append_iff.mp htail.symm
    rw [htext] at htrim
    obtain ⟨star, rfl, hstar⟩ : ∃ star, last = [star] ∧ Text.fold star = '*' := by
      simpa [List.map_eq_singleton_iff] using hlast
    obtain rfl := Text.eq_star_of_fold (Text.isAscii_iff.mp htrim star (by simp)) hstar
    have hcs : Text.isAscii cs = true := Text.isAscii_of_subset (by simp) htrim
    have hcovers := covers_of_fold hcs (fun hmem => hline (List.mem_append_left _ hmem)) hpart.symm
    have hnone : Covers ['*'] ([] ++ []) := .star List.not_mem_nil .nil
    refine ⟨part, List.prefix_append part later, ?_⟩
    rw [htext]
    simpa using covers_squeeze (hcovers.append hnone)

/-- The expression of each term is found in a text that matches the terms. -/
theorem occursIn_of_matchesText {p : Pattern} (hterms : ∀ t ∈ terms, Text.isAscii t.toList = true)
    (htext : Text.isAscii text.toList = true)
    (h : Match.matchesText text (terms.map Match.Term.ofString) = true) (ht : term ∈ terms)
    (hp : Pattern.compile? (termRegex term) true = some p) : p.occursIn text = true := by
  have hne : terms ≠ [] := List.ne_nil_of_mem ht
  rw [Match.matchesText_iff (by simpa using hne), Match.assignable_ofString] at h
  obtain ⟨assignment, -, hsuits⟩ := h
  obtain ⟨i, hi, rfl⟩ := List.getElem_of_mem ht
  have hsuit := hsuits ⟨i, hi⟩
  have hmem : (Match.wordsOf text)[assignment ⟨i, hi⟩] ∈ Match.wordsOf text := List.getElem_mem _
  obtain ⟨word, hword, heq⟩ := List.mem_map.mp hmem
  obtain ⟨hwithin, hblank⟩ := Text.infix_of_mem_words hword
  have hline : '\n' ∉ word := fun hmem => by cases hblank _ hmem
  rw [← heq] at hsuit
  obtain ⟨part, hpart, hcovers⟩ := covers_of_suits (hterms _ ht)
    (Text.isAscii_of_subset hwithin.subset htext) hline hsuit
  have hparse := (Option.filter_eq_some_iff.mp hp).1
  rw [termRegex_eq] at hparse
  exact Pattern.occursIn_wildcards hparse hcovers (hpart.isInfix.trans hwithin)

/-! ## The values that match -/

section

variable {a : Value} {j : Option Json}

theorem termsOf?_strings (terms : List String) :
    Match.termsOf? (terms.map .string) = some (terms.map Match.Term.ofString) := by
  induction terms with
  | nil => rfl
  | cons term terms ih =>
    unfold Match.termsOf? at ih ⊢
    rw [List.map_cons, List.mapM_cons, ih]
    rfl

/-- Among the items of an array that matches there is a text that does. -/
theorem exists_of_matchesAny {ts : List Match.Term} {items : List Value}
    (h : Match.matchesAny ts items = .bool true) :
    ∃ text, .string text ∈ items ∧ Match.matchesText text ts = true := by
  induction items with
  | nil => cases h
  | cons item items ih =>
    cases item with
    | string text =>
      rw [Match.matchesAny] at h
      split at h
      · next hmatches => exact ⟨text, List.mem_cons_self, hmatches⟩
      · obtain ⟨text', hmem, hmatches⟩ := ih h
        exact ⟨text', List.mem_cons_of_mem _ hmem, hmatches⟩
    | _ => cases h

/-- What matches is a text that does, or an array with one. -/
theorem exists_of_value (h : Match.value a (terms.map .string) = .bool true) :
    ∃ text, (a = .string text ∨ ∃ items, a = .array items ∧ .string text ∈ items) ∧
      Match.matchesText text (terms.map Match.Term.ofString) = true := by
  unfold Match.value at h
  rw [termsOf?_strings] at h
  cases a with
  | string text => exact ⟨text, .inl rfl, Value.bool.inj h⟩
  | array items =>
    obtain ⟨text, hmem, hmatches⟩ := exists_of_matchesAny h
    exact ⟨text, .inr ⟨items, rfl, hmem⟩, hmatches⟩
  | _ => cases h

/-- An array that matches has a text that does. -/
theorem exists_of_items {items : List Value}
    (h : Match.value (.array items) (terms.map .string) = .bool true) :
    ∃ text, .string text ∈ items ∧
      Match.matchesText text (terms.map Match.Term.ofString) = true := by
  obtain ⟨text, htext, hmatches⟩ := exists_of_value h
  rcases htext with htext | ⟨_, heq, hmem⟩
  · cases htext
  · cases heq
    exact ⟨text, hmem, hmatches⟩

theorem isAsciiText_of_mem {items : List Value} (h : (Value.array items).isAsciiCandidate = true)
    (hmem : .string text ∈ items) : Text.isAscii text.toList = true :=
  List.all_eq_true.mp h _ hmem

end

/-! ## The answers of the store -/

section

variable {document : Json} {field : String} {answer : Except StoreError Bool} {must : Prop}

/-- The expression of a term can be read, so it is refused for its size alone. -/
theorem refusal_termRegex (term : String) :
    Selector.refusal (termRegex term) true = .tooLarge Pattern.Tally.limit := by
  rw [termRegex_eq]
  obtain ⟨p, hp⟩ := Pattern.exists_parse_wildcards (squeeze (Text.trim term.toList))
  exact Selector.refusal_of_parse hp

/-- Some term is too large for the store. -/
def Uncompiled (terms : List String) : Prop :=
  ∃ t ∈ terms, Pattern.compile? (termRegex t) true = none

/-- What the store may answer in a search where it has to accept. -/
def Admits (terms : List String) (must : Prop) (answer : Except StoreError Bool) : Prop :=
  (∃ b, answer = .ok b ∧ (must → b = true)) ∨
    answer = .error (.pattern (.tooLarge Pattern.Tally.limit)) ∧ Uncompiled terms

/-- Whether a field, or a text in it, has an occurrence of a pattern. -/
def fieldHas (p : Pattern) : Option Json → Bool
  | some (.str text) => p.occursIn text
  | some (.arr items) => (items.filterMap Json.asString?).any p.occursIn
  | _ => false

theorem hasPattern_ignoringCase (regex : String) (value : Option Json) :
    Selector.hasPattern value (.str regex) (some (.str "i")) =
      (Pattern.compile? regex true).elim (.error (.pattern (Selector.refusal regex true))) fun p =>
        .ok (fieldHas p value) := by
  have hignore : (((some (Json.str "i")).bind Json.asString?).getD "").contains 'i' = true := by
    simp [Json.asString?]
  unfold Selector.hasPattern
  dsimp only
  rw [hignore]
  cases Pattern.compile? regex true with
  | none => rfl
  | some p => rfl

/-- An expression whose letter case is ignored. -/
theorem accepts_regex (hfield : field ∉ Selector.reserved) (regex : String) (document : Json) :
    Selector.accepts (on field (.obj [("$options", .str "i"), ("$regex", .str regex)])) document =
      (Pattern.compile? regex true).elim (.error (.pattern (Selector.refusal regex true))) fun p =>
        .ok (fieldHas p (Selector.lookup document field)) := by
  generalize hvalue : Selector.lookup document field = value
  have hoptions : Fields.get? [("$options", Json.str "i"), ("$regex", .str regex)] "$options" =
      some (.str "i") := if_pos rfl
  rw [Selector.accepts_on hfield, hvalue, Selector.meets_obj,
    if_pos (by simp [Selector.isOperatorDocument]), Selector.meetsAll_cons]
  show Selector.meetsAll [("$regex", .str regex)] _ value = _
  rw [Selector.meetsAll_cons, hoptions]
  show (do let here ← Selector.hasPattern value (.str regex) (some (.str "i")); _) = _
  rw [hasPattern_ignoringCase]
  cases Pattern.compile? regex true with
  | none => rfl
  | some p =>
    rw [Option.elim_some]
    cases fieldHas p value <;> rfl

theorem Admits.mono {must' : Prop} (h : Admits terms must answer) (hmust : must' → must) :
    Admits terms must' answer :=
  h.imp_left fun ⟨b, hb, himp⟩ => ⟨b, hb, himp ∘ hmust⟩

/-- All terms are asked for, up to the first that is not there. -/
theorem admits_fieldHasTerms (hfield : field ∉ Selector.reserved) (terms : List String)
    (document : Json) : Admits terms
      (∀ t ∈ terms, ∀ p, Pattern.compile? (termRegex t) true = some p →
        fieldHas p (Selector.lookup document field) = true)
      (Selector.accepts (fieldHasTerms terms field) document) := by
  rw [fieldHasTerms, Selector.accepts_and]
  induction terms with
  | nil => exact .inl ⟨true, rfl, fun _ => rfl⟩
  | cons t terms ih =>
    have hlater : Uncompiled terms → Uncompiled (t :: terms) :=
      fun ⟨u, hu, hnone⟩ => ⟨u, List.mem_cons_of_mem t hu, hnone⟩
    rw [List.map_cons, Selector.acceptsAll_cons, accepts_regex hfield]
    cases hp : Pattern.compile? (termRegex t) true with
    | none =>
      rw [refusal_termRegex]
      exact .inr ⟨rfl, t, List.mem_cons_self, hp⟩
    | some p =>
      show Admits _ _ (do if ← (Except.ok (fieldHas p _) : Except StoreError Bool) then _ else _)
      cases hhas : fieldHas p (Selector.lookup document field) with
      | false =>
        refine .inl ⟨false, rfl, fun hmust => ?_⟩
        rw [← hhas]
        exact hmust t List.mem_cons_self p hp
      | true =>
        rcases ih with ⟨b, hb, himp⟩ | ⟨herror, huncompiled⟩
        · exact .inl ⟨b, hb, fun hmust => himp fun u hu => hmust u (List.mem_cons_of_mem t hu)⟩
        · exact .inr ⟨herror, hlater huncompiled⟩

/-- What the store finds in a field is in ASCII and matches. -/
def Matches (terms : List String) (document : Json) (field : String) : Prop :=
  (Value.ofJson? (Selector.lookup document field)).isAsciiCandidate = true ∧
    Match.value (Value.ofJson? (Selector.lookup document field)) (terms.map .string) = .bool true

/-- A field that matches is accepted. -/
theorem admits_matches (hfield : field ∉ Selector.reserved)
    (hterms : ∀ t ∈ terms, Text.isAscii t.toList = true) (document : Json) :
    Admits terms (Matches terms document field)
      (Selector.accepts (fieldHasTerms terms field) document) := by
  refine (admits_fieldHasTerms hfield terms document).mono ?_
  rintro ⟨hascii, hvalue⟩ t ht p hp
  obtain ⟨text, htext, hmatches⟩ := exists_of_value hvalue
  rcases htext with htext | ⟨items, hitems, hmem⟩
  · rw [htext] at hascii
    have hoccurs := occursIn_of_matchesText hterms hascii hmatches ht hp
    rw [Value.eq_str_of_ofJson? htext]
    exact hoccurs
  · obtain ⟨js, hjs, rfl⟩ := Value.eq_arr_of_ofJson? hitems
    rw [hitems] at hascii
    have hoccurs := occursIn_of_matchesText hterms (isAsciiText_of_mem hascii hmem) hmatches ht hp
    obtain ⟨j, hj, heq⟩ := List.mem_map.mp hmem
    obtain rfl := Value.eq_str_of_ofJson heq
    rw [hjs]
    exact List.any_eq_true.mpr ⟨text, List.mem_filterMap.mpr ⟨_, hj, rfl⟩, hoccurs⟩

/-- One of several fields has to match; those before it are asked first. -/
theorem admits_any {fields : List String} (hfields : ∀ f ∈ fields, f ∉ Selector.reserved)
    (hterms : ∀ t ∈ terms, Text.isAscii t.toList = true) (document : Json) :
    Admits terms (∃ f ∈ fields, Matches terms document f)
      (Selector.acceptsAny (fields.map (fieldHasTerms terms)) document) := by
  induction fields with
  | nil => exact .inl ⟨false, rfl, fun ⟨_, hf, _⟩ => nomatch hf⟩
  | cons f fields ih =>
    obtain ⟨hf, hfields⟩ := List.forall_mem_cons.mp hfields
    rw [List.map_cons, Selector.acceptsAny_cons]
    rcases admits_matches hf hterms document with ⟨b, hb, himp⟩ | ⟨herror, huncompiled⟩
    · rw [hb]
      cases b with
      | true => exact .inl ⟨true, rfl, fun _ => rfl⟩
      | false =>
        refine (ih hfields).mono ?_
        rintro ⟨g, hg, hmust⟩
        rcases List.mem_cons.mp hg with rfl | hg
        · cases himp hmust
        · exact ⟨g, hg, hmust⟩
    · rw [herror]
      exact .inr ⟨rfl, huncompiled⟩

/-- The search in some fields, of which one has to match. -/
theorem admits_fieldsHaveTerms {fields : List String}
    (hfields : ∀ f ∈ fields, f ∉ Selector.reserved)
    (hterms : ∀ t ∈ terms, Text.isAscii t.toList = true)
    (hmatches : ∃ f ∈ fields, Matches terms document f) : ∃ selector,
      (fieldsHaveTerms fields terms).selector? = some selector ∧
        Admits terms True (Selector.accepts selector document) := by
  cases fields with
  | nil => exact ⟨_, rfl, .inl ⟨true, rfl, fun _ => rfl⟩⟩
  | cons f fields =>
    cases fields with
    | nil =>
      obtain ⟨g, hg, hmatches⟩ := hmatches
      obtain rfl := List.mem_singleton.mp hg
      exact ⟨_, rfl, (admits_matches (hfields g hg) hterms document).mono fun _ => hmatches⟩
    | cons g fields =>
      refine ⟨_, rfl, ?_⟩
      rw [Selector.accepts_or]
      exact (admits_any hfields hterms document).mono fun _ => hmatches

end

/-! ## The search -/

section

open Engine Run

variable {fetcher : Fetcher} {fields : Fields Json} {s : Scope} {σ τ : Session} {r : Scoped}
  {lhs rhs : Operation}

theorem eq_strings_of_mapM {items : List Value} (h : items.mapM Value.asString? = some terms) :
    items = terms.map .string := by
  induction items generalizing terms with
  | nil =>
    obtain rfl : [] = terms := by simpa using h
    rfl
  | cons item items ih =>
    simp only [List.mapM_cons, Option.bind_eq_bind, Option.bind_eq_some_iff, Option.pure_def,
      Option.some.injEq] at h
    obtain ⟨t, ht, rest, hrest, rfl⟩ := h
    cases item with
    | string u =>
      obtain rfl : u = t := Option.some.inj ht
      rw [List.map_cons, ih hrest]
    | _ => cases ht

/-- The terms that the store knows are those that the engine goes by. -/
theorem literal_of_searchTerms? (h : searchTerms? rhs = some terms) :
    ∃ v, rhs.literal? = some v ∧ Operator.matchTerms v = terms.map .string := by
  unfold searchTerms? at h
  split at h
  · next t hliteral =>
    obtain rfl : [t] = terms := Option.some.inj h
    exact ⟨_, hliteral, rfl⟩
  · next items hliteral =>
    obtain ⟨found, hfound, hif⟩ := Option.bind_eq_some_iff.mp h
    split at hif
    · cases hif
    · obtain rfl := Option.some.inj hif
      exact ⟨_, hliteral, eq_strings_of_mapM hfound⟩
  · cases h

/-- What the engine reads in a field with a plain name is what the store finds there. -/
theorem value_of_field {o : Operation} {name : String}
    (hs : s.value = Value.ofJson (Collection.unstored (Collection.stored fields)).1)
    (hplain : (o.fieldName?.isNone || o.isPlainOperand) = true) (hname : o.fieldName? = some name)
    (hrun : (exec fetcher o s).Yields σ r τ) : name ∉ Selector.reserved ∧
      r.value = Value.ofJson? (Selector.lookup (Collection.stored fields) name) := by
  have hoperand : o.isPlainOperand = true := by simpa [hname] using hplain
  exact ⟨Operation.not_mem_reserved hoperand hname, (reads_of_yields hoperand hs hrun).field hname⟩

/-- The elements of an array of fields are what the store finds in the fields. -/
theorem value_of_fields {elements : List Operation} {names : List String} {values : List Value}
    (hs : s.value = Value.ofJson (Collection.unstored (Collection.stored fields)).1)
    (hplain : ∀ e ∈ elements, (e.fieldName?.isNone || e.isPlainOperand) = true)
    (hnames : elements.mapM Operation.fieldName? = some names)
    (hrun : (execAll fetcher elements s).Yields σ values τ) :
    (∀ name ∈ names, name ∉ Selector.reserved) ∧
      values = names.map fun name =>
        Value.ofJson? (Selector.lookup (Collection.stored fields) name) := by
  induction elements generalizing names values σ with
  | nil =>
    obtain rfl : [] = names := Option.some.inj hnames
    obtain ⟨rfl, -⟩ := yields_execAll_nil.mp hrun
    exact ⟨(fun _ h => nomatch h), rfl⟩
  | cons e elements ih =>
    simp only [List.mapM_cons, Option.bind_eq_bind, Option.bind_eq_some_iff, Option.pure_def,
      Option.some.injEq] at hnames
    obtain ⟨name, hname, rest, hrest, rfl⟩ := hnames
    obtain ⟨he, helements⟩ := List.forall_mem_cons.mp hplain
    obtain ⟨a, ρ, found, ha, hfound, rfl⟩ := yields_execAll_cons.mp hrun
    obtain ⟨hreserved, hvalue⟩ := value_of_field hs he hname ha
    obtain ⟨hlater, rfl⟩ := ih helements hrest hfound
    exact ⟨List.forall_mem_cons.mpr ⟨hreserved, hlater⟩, by rw [List.map_cons, hvalue]⟩

/-- **A search drops no document that the engine finds**, in ASCII and in fields whose names are
plain. It accepts the document, unless the expression of a term is too large for the store, which then
refuses to answer. -/
theorem search_keeps {clause : Clause}
    (hclause : ofFilter (.binary .textMatch lhs rhs) = .ok clause)
    (hs : s.value = Value.ofJson (Collection.unstored (Collection.stored fields)).1)
    (hlhs : lhs.isPlainSubject = true)
    (hterms : ∀ terms, searchTerms? rhs = some terms → ∀ t ∈ terms, Text.isAscii t.toList = true)
    (hascii : ∀ a ρ, (exec fetcher lhs s).Yields σ a ρ → a.value.isAsciiCandidate = true)
    (hrun : (exec fetcher (.binary .textMatch lhs rhs) s).Yields σ r τ)
    (htrue : r.value = .bool true) :
    ∃ selector, clause.selector? = some selector ∧
      (Selector.accepts selector (Collection.stored fields) = .ok true ∨
        Selector.accepts selector (Collection.stored fields) =
            .error (.pattern (.tooLarge Pattern.Tally.limit)) ∧
          ∃ terms, searchTerms? rhs = some terms ∧
            ∃ t ∈ terms, Pattern.compile? (termRegex t) true = none) := by
  obtain rfl : search lhs rhs = clause := Except.ok.inj hclause
  obtain ⟨a, ρ, b, v, ha, hb, hv, rfl⟩ := yields_binary.mp hrun
  obtain rfl : v = .bool true := htrue
  cases hsearch : searchTerms? rhs with
  | none =>
    have hunknown : search lhs rhs = .unknown := by
      unfold search
      rw [hsearch]
    exact ⟨.obj [], by rw [hunknown]; rfl, .inl rfl⟩
  | some terms =>
    have hterms := hterms terms hsearch
    obtain ⟨w, hliteral, hw⟩ := literal_of_searchTerms? hsearch
    obtain ⟨rfl, -⟩ := yields_of_literal? hliteral hb
    have hvalue : Match.value a.value (terms.map .string) = .bool true := by
      rw [← hw]
      exact Except.ok.inj hv
    suffices h : ∃ selector, (search lhs rhs).selector? = some selector ∧
        Admits terms True (Selector.accepts selector (Collection.stored fields)) by
      obtain ⟨selector, hselector, ⟨b, hb, himp⟩ | ⟨herror, huncompiled⟩⟩ := h
      · exact ⟨selector, hselector, .inl (himp trivial ▸ hb)⟩
      · exact ⟨selector, hselector, .inr ⟨herror, terms, rfl, huncompiled⟩⟩
    have hunknown : ∃ selector, Clause.unknown.selector? = some selector ∧
        Admits terms True (Selector.accepts selector (Collection.stored fields)) :=
      ⟨.obj [], rfl, .inl ⟨true, rfl, fun _ => rfl⟩⟩
    have hascii := hascii a ρ ha
    unfold search
    rw [hsearch]
    dsimp only
    cases hoperand : Operand.ofOperation lhs with
    | field name =>
      have hname := Operand.field_of_ofOperation hoperand
      have hplain : (lhs.fieldName?.isNone || lhs.isPlainOperand) = true := by
        cases lhs with
        | array elements => cases hname
        | _ => exact hlhs
      obtain ⟨hreserved, hread⟩ := value_of_field hs hplain hname ha
      rw [hread] at hascii hvalue
      exact admits_fieldsHaveTerms (List.forall_mem_singleton.mpr hreserved) hterms
        ⟨name, List.mem_cons_self, hascii, hvalue⟩
    | value candidate =>
      rw [(yields_of_literal? (Operand.literal_of_ofOperation hoperand) ha).1] at hvalue
      dsimp only
      rw [hvalue]
      exact hunknown
    | other =>
      cases lhs with
      | array elements =>
        dsimp only
        cases hnames : elements.mapM Operation.fieldName? with
        | none => exact hunknown
        | some names =>
          obtain ⟨values, hvalues, rfl⟩ := yields_array.mp ha
          obtain ⟨hreserved, rfl⟩ := value_of_fields hs (List.all_eq_true.mp hlhs) hnames hvalues
          obtain ⟨text, hmem, hmatches⟩ := exists_of_items hvalue
          obtain ⟨name, hname, heq⟩ := List.mem_map.mp hmem
          refine admits_fieldsHaveTerms hreserved hterms ⟨name, hname, ?_⟩
          unfold Matches Match.value
          rw [heq, termsOf?_strings]
          exact ⟨isAsciiText_of_mem hascii hmem, congrArg Value.bool hmatches⟩
      | _ => exact hunknown

/-- A digit has no letter case, so its expression is the digit itself. -/
theorem compile?_seven : Pattern.compile? "7" true = some (.char (.folded (.single '7'))) := by
  have hsingle : (CharSet.single '7').codePoints = [(55, 55)] := by decide
  have htargets : (CharRanges.foldPairs.filterMap fun p =>
      if CharRanges.covers [(55, 55)] p.1 || CharRanges.covers [(55, 55)] p.2 then some p.2
      else none) = [] := by decide +kernel
  have hnone : CharRanges.foldPairs.filter (fun p => ([] : List Nat).contains p.2) = [] :=
    List.filter_eq_nil_iff.mpr fun _ _ => by simp
  have hranges : (CharSet.folded (.single '7')).ranges = [(55, 55)] := by
    rw [CharSet.ranges, CharSet.codePoints, hsingle, CharRanges.folded, htargets, hnone,
      CharRanges.join, List.flatMap_nil, List.append_nil, List.mergeSort_singleton]
    rfl
  have hnormal : Pattern.Normal.ofPattern (.char (.folded (.single '7'))) = .bytes [55] := by
    rw [Pattern.Normal.ofPattern, hranges]
    rfl
  refine Option.filter_eq_some_iff.mpr ⟨rfl, ?_⟩
  rw [Pattern.fits, hnormal]
  decide

theorem matchesText_seven :
    Match.matchesText "lucky 7" (["7"].map Match.Term.ofString) = true := by
  have hwords : Match.wordsOf "lucky 7" = ["lucky".toList, "7".toList] := by decide
  rw [Match.matchesText_iff (by simp), Match.assignable_ofString, hwords]
  refine ⟨fun _ => ⟨1, by decide⟩, fun i j _ => ?_, fun i => ?_⟩
  · exact (Fin.fin_one_eq_zero i).trans (Fin.fin_one_eq_zero j).symm
  obtain rfl : i = ⟨0, Nat.zero_lt_one⟩ := Fin.fin_one_eq_zero i
  exact .inl (by decide)

/-- The engine finds the seven in a field, whatever its name. -/
theorem yields_seven {name : String} (h : s.value.getD name = .string "lucky 7")
    (hparent : s.parent = none) :
    (exec fetcher (.binary .textMatch (.accessor [.attr name]) (.literal (.string "7"))) s).Yields
      σ (.one (.detached (.bool true))) σ := by
  have hvalue : ((Scoped.one (s.resolve [.attr name])).value) = .string "lucky 7" := by
    show (s.resolve [.attr name]).value = _
    have hnames : Operation.attributeNames? [.attr name] = some [name] := rfl
    exact (Scope.value_resolve hnames s).trans h
  refine yields_binary.mpr ⟨_, σ, _, .bool true, yields_accessor.mpr ⟨rfl, rfl⟩,
    yields_literal.mpr ⟨rfl, rfl⟩, ?_, ?_⟩
  · rw [hvalue]
    exact congrArg (fun b => Except.ok (Value.bool b)) matchesText_seven
  · unfold Scope.derived
    rw [hparent]
    rfl

/-- A search in a field with a plain name. -/
theorem search_keeps_seven :
    let fields : Fields Json := [("_id", .str "a"), ("t", .str "lucky 7")]
    let s := Scope.detached (Value.ofJson (Collection.unstored (Collection.stored fields)).1)
    (exec (.fullScan []) (.binary .textMatch (.accessor [.attr "t"]) (.literal (.string "7")))
        s).Yields .empty (.one (.detached (.bool true))) .empty ∧
      ∃ selector, (atLeast (fieldHasTerms ["7"] "t")).selector? = some selector ∧
        Selector.accepts selector (Collection.stored fields) = .ok true := by
  intro fields s
  have hrun : (exec (.fullScan []) (.binary .textMatch (.accessor [.attr "t"])
      (.literal (.string "7"))) s).Yields .empty (.one (.detached (.bool true))) .empty :=
    yields_seven rfl rfl
  have hascii : ∀ (a : Scoped) ρ, (exec (.fullScan []) (.accessor [.attr "t"]) s).Yields .empty a ρ →
      a.value.isAsciiCandidate = true := by
    intro a ρ ha
    obtain ⟨rfl, -⟩ := yields_accessor.mp ha
    decide +kernel
  have hterms : ∀ terms, searchTerms? (.literal (.string "7")) = some terms →
      ∀ t ∈ terms, Text.isAscii t.toList = true := by
    intro terms hterms t ht
    obtain rfl : ["7"] = terms := Option.some.inj hterms
    obtain rfl := List.mem_singleton.mp ht
    decide
  obtain ⟨selector, hselector, haccepts | ⟨-, terms, hterms, t, ht, hnone⟩⟩ :=
    search_keeps rfl rfl (by decide +kernel) hterms hascii hrun rfl
  · exact ⟨hrun, selector, hselector, haccepts⟩
  · obtain rfl : ["7"] = terms := Option.some.inj hterms
    obtain rfl := List.mem_singleton.mp ht
    have hregex : termRegex "7" = "7" := by decide
    rw [hregex, compile?_seven] at hnone
    cases hnone

/-- The name of the field holds a dot: the engine finds the document, the store looks in another
place. -/
theorem search_drops_dotted :
    let fields : Fields Json := [("_id", .str "a"), ("a.b", .str "lucky 7")]
    (exec (.fullScan []) (.binary .textMatch (.accessor [.attr "a.b"]) (.literal (.string "7")))
        (.detached (Value.ofJson (.obj fields)))).Yields .empty (.one (.detached (.bool true)))
          .empty ∧
      ofFilter (.binary .textMatch (.accessor [.attr "a.b"]) (.literal (.string "7"))) =
        .ok (atLeast (fieldHasTerms ["7"] "a.b")) ∧
      Selector.accepts (fieldHasTerms ["7"] "a.b") (Collection.stored fields) = .ok false := by
  refine ⟨yields_seven rfl rfl, rfl, ?_⟩
  have hregex : termRegex "7" = "7" := by decide
  have hlookup : Selector.lookup (Collection.stored [("_id", .str "a"), ("a.b", .str "lucky 7")])
      "a.b" = none := by decide +kernel
  rw [fieldHasTerms, Selector.accepts_and, List.map_cons, Selector.acceptsAll_cons,
    accepts_regex (by decide), hregex, compile?_seven, hlookup]
  rfl

end

end Clause
end DocQuery
