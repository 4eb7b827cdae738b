import Saturn.Http.Params

/-!
# Encoded parameters

The parser decodes values only, and the encoder leaves `=` as it is. A list of parameters comes
back from its encoding exactly if the encoder leaves the keys alone and none has a `=`.
-/

namespace Saturn

namespace Http

/-- `UrlEncode(k) + "=" + UrlEncode(v)`. -/
def encodePair (e : Bytes × Bytes) : Bytes := urlEncode e.1 true ++ 61 :: urlEncode e.2 true

/-- The encoded pairs, with `&` between them. -/
def encodeQuery (pairs : List (Bytes × Bytes)) : Bytes := [38].intercalate (pairs.map encodePair)

/-- Unreserved characters other than `=`. -/
def Plain (key : Bytes) : Prop := ∀ c ∈ key, charIsUnreserved c = true ∧ c ≠ 61

instance (key : Bytes) : Decidable (Plain key) :=
  List.decidableBAll (fun c => charIsUnreserved c = true ∧ c ≠ 61) key

section Encoded

theorem encodeChar_of_unreserved {c : UInt8} (h : charIsUnreserved c = true) (spaceAsPlus : Bool) :
    encodeChar spaceAsPlus c = [c] := by
  rw [encodeChar, if_pos h]

theorem ne_of_isXdigit {c : UInt8} (h : isXdigit c = true) : c ≠ 32 ∧ c ≠ 38 ∧ c ≠ 61 := by
  refine ⟨?_, ?_, ?_⟩ <;> rintro rfl <;> exact absurd h (by decide)

/-- The encoder writes no space and no `&`, and `=` only for itself. -/
theorem ne_of_mem_encodeChar {b c : UInt8} (h : b ∈ encodeChar true c) :
    b ≠ 32 ∧ b ≠ 38 ∧ (c ≠ 61 → b ≠ 61) := by
  rw [encodeChar] at h
  split at h
  · rename_i hc
    obtain rfl := List.mem_singleton.mp h
    obtain ⟨hspace, -, hamp, -⟩ := ne_of_unreserved hc
    exact ⟨hspace, hamp, id⟩
  · split at h
    · obtain rfl := List.mem_singleton.mp h
      exact ⟨by decide, by decide, fun _ => by decide⟩
    · rcases List.mem_cons.mp h with rfl | h
      · exact ⟨by decide, by decide, fun _ => by decide⟩
      · have hx : isXdigit b = true := by
          rcases List.mem_cons.mp h with rfl | h
          · exact (hexdigits_hi c).1
          · exact List.mem_singleton.mp h ▸ (hexdigits_lo c).1
        obtain ⟨hspace, hamp, hassign⟩ := ne_of_isXdigit hx
        exact ⟨hspace, hamp, fun _ => hassign⟩

theorem ne_of_mem_urlEncode {b : UInt8} {str : Bytes} (h : b ∈ urlEncode str true) :
    b ≠ 32 ∧ b ≠ 38 := by
  rw [urlEncode_eq] at h
  obtain ⟨c, -, hb⟩ := List.mem_flatMap.mp h
  exact ⟨(ne_of_mem_encodeChar hb).1, (ne_of_mem_encodeChar hb).2.1⟩

theorem assign_not_mem_urlEncode {str : Bytes} (h : 61 ∉ str) : 61 ∉ urlEncode str true := by
  rw [urlEncode_eq]
  intro hmem
  obtain ⟨c, hc, hb⟩ := List.mem_flatMap.mp hmem
  exact (ne_of_mem_encodeChar hb).2.2 (fun heq => h (heq ▸ hc)) rfl

theorem urlEncode_of_unreserved {str : Bytes} (h : ∀ c ∈ str, charIsUnreserved c = true) :
    urlEncode str true = str := by
  rw [urlEncode_eq]
  induction str with
  | nil => rfl
  | cons c str ih =>
      rw [List.flatMap_cons, encodeChar_of_unreserved (h c List.mem_cons_self),
        ih fun b hb => h b (List.mem_cons_of_mem _ hb), List.singleton_append]

/-- A string without spaces is left alone, or becomes longer. -/
theorem length_urlEncode {str : Bytes} (h : 32 ∉ str) :
    (∀ c ∈ str, charIsUnreserved c = true) ∨ str.length < (urlEncode str true).length := by
  have hle (c : UInt8) : 1 ≤ (encodeChar true c).length := by
    rw [encodeChar]
    split
    · exact Nat.le_refl 1
    · split
      · exact Nat.le_refl 1
      · exact Nat.le_add_left 1 2
  have hall (str : Bytes) : str.length ≤ (str.flatMap (encodeChar true)).length := by
    induction str with
    | nil => exact Nat.le_refl 0
    | cons c str ih =>
        have := hle c
        rw [List.flatMap_cons, List.length_append, List.length_cons]
        omega
  rw [urlEncode_eq]
  induction str with
  | nil => exact Or.inl (by simp)
  | cons c str ih =>
      rw [List.flatMap_cons, List.length_append, List.length_cons]
      by_cases hc : charIsUnreserved c = true
      · rcases ih fun hmem => h (List.mem_cons_of_mem _ hmem) with ih | ih
        · exact Or.inl (List.forall_mem_cons.mpr ⟨hc, ih⟩)
        · have := hle c
          exact Or.inr (by omega)
      · have hspace : c ≠ 32 := fun heq => h (heq ▸ List.mem_cons_self)
        have hlen : (encodeChar true c).length = 3 := by
          rw [encodeChar, if_neg hc, if_neg (by simp [hspace])]
          rfl
        have := hall str
        exact Or.inr (by omega)

end Encoded

section Query

variable {pairs : List (Bytes × Bytes)}

/-- The parser takes the encoded key, up to its first `=`. -/
theorem key_of_entry {e e' : Bytes × Bytes} (h : entry id (encodePair e) = some e') :
    e'.1 = (urlEncode e.1 true).takeWhile (· ≠ 61) := by
  rw [entry, if_pos (by simp [encodePair])] at h
  cases h
  rw [id, encodePair, List.takeWhile_append]
  split
  · rw [List.takeWhile_cons_of_neg (by simp), List.append_nil]
    exact (List.takeWhile_prefix _).eq_of_length ‹_› |>.symm
  · rfl

theorem entry_of_plain {e : Bytes × Bytes} (h : Plain e.1) : entry id (encodePair e) = some e := by
  have hassign : 61 ∉ e.1 := fun hmem => (h 61 hmem).2 rfl
  rw [encodePair, urlEncode_of_unreserved fun c hc => (h c hc).1, entry_of_assign hassign,
    urlDecode_urlEncode]
  rfl

theorem separator_not_mem_encodePair (e : Bytes × Bytes) : 38 ∉ encodePair e := by
  intro hmem
  rcases List.mem_append.mp hmem with h | h
  · exact (ne_of_mem_urlEncode h).2 rfl
  · rcases List.mem_cons.mp h with h | h
    · exact absurd h (by decide)
    · exact (ne_of_mem_urlEncode h).2 rfl

/-- Cutting at `&` undoes the joining. -/
theorem splitOn_encodeQuery (h : pairs ≠ []) :
    (encodeQuery pairs).splitOn 38 = pairs.map encodePair := by
  refine List.splitOn_intercalate 38 ?_ (by simpa using h)
  intro piece hpiece
  obtain ⟨e, -, rfl⟩ := List.mem_map.mp hpiece
  exact separator_not_mem_encodePair e

theorem entries_encodeQuery (pairs : List (Bytes × Bytes)) :
    entries 38 id (encodeQuery pairs) = pairs.filterMap fun e => entry id (encodePair e) := by
  by_cases h : pairs = []
  · rw [h]
    rfl
  · rw [entries, splitOn_encodeQuery h, List.filterMap_map]
    rfl

theorem assignmentsFirst_encodeQuery (pairs : List (Bytes × Bytes)) :
    AssignmentsFirst 38 (encodeQuery pairs) := by
  by_cases h : pairs = []
  · rw [h]
    exact List.pairwise_singleton _ _
  · rw [AssignmentsFirst, splitOn_encodeQuery h, List.pairwise_map]
    exact List.pairwise_of_forall fun e _ _ => by simp [encodePair]

/-- Keys that are all encodings of keys of the list are plain: the shortest one that is not would
be the encoding of a shorter one. -/
theorem plain_of_keys_encoded {keys : List Bytes}
    (h : ∀ k ∈ keys, ∃ k' ∈ keys, k = (urlEncode k' true).takeWhile (· ≠ 61)) :
    ∀ k ∈ keys, Plain k := by
  have hassign : ∀ k ∈ keys, 61 ∉ k := by
    intro k hk hmem
    obtain ⟨k', -, rfl⟩ := h k hk
    exact absurd (List.mem_takeWhile_imp hmem) (by decide)
  have hencoded : ∀ k ∈ keys, ∃ k' ∈ keys, k = urlEncode k' true := by
    intro k hk
    obtain ⟨k', hk', heq⟩ := h k hk
    refine ⟨k', hk', heq.trans (List.takeWhile_eq_self_iff.mpr fun c hc => ?_)⟩
    exact decide_eq_true fun hc61 => assign_not_mem_urlEncode (hassign k' hk') (hc61 ▸ hc)
  have hspace : ∀ k ∈ keys, 32 ∉ k := by
    intro k hk hmem
    obtain ⟨k', -, rfl⟩ := hencoded k hk
    exact (ne_of_mem_urlEncode hmem).1 rfl
  have hunreserved : ∀ n, ∀ k ∈ keys, k.length = n → ∀ c ∈ k, charIsUnreserved c = true := by
    intro n
    induction n using Nat.strongRecOn with
    | ind n ih =>
        intro k hk hlen
        obtain ⟨k', hk', heq⟩ := hencoded k hk
        rcases length_urlEncode (hspace k' hk') with hall | hlt
        · rwa [heq, urlEncode_of_unreserved hall]
        · rw [← heq] at hlt
          have hall := ih k'.length (by omega) k' hk' rfl
          rwa [heq, urlEncode_of_unreserved hall]
  exact fun k hk c hc => ⟨hunreserved _ k hk rfl c hc, fun heq => hassign k hk (heq ▸ hc)⟩

/-- Pairs whose keys are new and differ are all in the map then. -/
theorem mem_foldl_insert {m : MapType} {l : List (Bytes × Bytes)}
    (hnew : ∀ e ∈ l, ∀ e' ∈ m, caseFold e'.1 ≠ caseFold e.1)
    (hdistinct : l.Pairwise fun a b => caseFold a.1 ≠ caseFold b.1) {e : Bytes × Bytes} :
    e ∈ l.foldl MapType.insert m ↔ e ∈ l ∨ e ∈ m := by
  refine ⟨MapType.mem_foldl_insert_cases, fun h => ?_⟩
  induction l generalizing m with
  | nil => exact h.resolve_left nofun
  | cons head l ih =>
      obtain ⟨hhead, htail⟩ := List.pairwise_cons.mp hdistinct
      have hinserted : head ∈ m.insert head := by
        obtain ⟨e', hmem, heq⟩ := MapType.exists_mem_insert m head
        rcases MapType.mem_insert_cases hmem with rfl | hold
        · exact hmem
        · exact absurd heq (hnew head List.mem_cons_self e' hold)
      refine ih (fun f hf e' he' => ?_) htail ?_
      · rcases MapType.mem_insert_cases he' with rfl | hold
        · exact hhead f hf
        · exact hnew f (List.mem_cons_of_mem _ hf) e' hold
      · rcases h with h | h
        · rcases List.mem_cons.mp h with rfl | h
          · exact Or.inr hinserted
          · exact Or.inl h
        · exact Or.inr (MapType.mem_insert_of_mem h)

/-- The parameters of the request are then the pairs. -/
def ComesBack (r : ParamRequest) (pairs : List (Bytes × Bytes)) : Prop :=
  ∀ e, e ∈ r.initQueryParam.params ↔ e ∈ pairs

variable {r : ParamRequest}

theorem params_encodeQuery (hflag : r.parserParamFlag &&& 0x1 = 0) (hparams : r.params = [])
    (hquery : r.query = encodeQuery pairs) :
    r.initQueryParam.params =
      (pairs.filterMap fun e => entry id (encodePair e)).foldl MapType.insert [] := by
  have hfirst := assignmentsFirst_encodeQuery pairs
  rw [ParamRequest.initQueryParam, if_neg (not_not_intro hflag)]
  rw [parseParam_of_assignmentsFirst (by decide) 0 (by rwa [List.drop_zero, hquery]), hparams,
    List.drop_zero, hquery, entries_encodeQuery]

/-- Encoded parameters come back exactly if the keys are plain. -/
theorem comesBack_iff (hflag : r.parserParamFlag &&& 0x1 = 0) (hparams : r.params = [])
    (hquery : r.query = encodeQuery pairs) (hzero : ∀ e ∈ pairs, 0 ∉ e.1)
    (hdistinct : pairs.Pairwise fun a b => a.1.map toLower ≠ b.1.map toLower) :
    ComesBack r pairs ↔ ∀ e ∈ pairs, Plain e.1 := by
  rw [ComesBack, params_encodeQuery hflag hparams hquery]
  constructor
  · intro h
    have hkeys : ∀ k ∈ pairs.map Prod.fst, Plain k := by
      refine plain_of_keys_encoded fun k hk => ?_
      obtain ⟨e, he, rfl⟩ := List.mem_map.mp hk
      obtain ⟨e', he', hentry⟩ := List.mem_filterMap.mp
        ((MapType.mem_foldl_insert_cases ((h e).mpr he)).resolve_right List.not_mem_nil)
      exact ⟨e'.1, List.mem_map_of_mem he', key_of_entry hentry⟩
    exact fun e he => hkeys e.1 (List.mem_map_of_mem he)
  · intro h e
    have hentries : (pairs.filterMap fun e => entry id (encodePair e)) = pairs := by
      rw [List.filterMap_congr fun e he => entry_of_plain (h e he), List.filterMap_some]
    have hfold : pairs.Pairwise fun a b => caseFold a.1 ≠ caseFold b.1 := by
      refine hdistinct.imp_of_mem fun {a b} ha hb hne => ?_
      rwa [caseFold_of_zero_not_mem (hzero a ha), caseFold_of_zero_not_mem (hzero b hb)]
    rw [hentries, mem_foldl_insert (fun _ _ _ h => absurd h List.not_mem_nil) hfold]
    exact or_iff_left List.not_mem_nil

/-- A request for the pairs. -/
def queryOf (pairs : List (Bytes × Bytes)) : ParamRequest :=
  { ParamRequest.new with query := encodeQuery pairs }

/-- Three parameters, with the separators of a query and of its fields in the values. -/
def punctuation : List (Bytes × Bytes) :=
  [(ascii "name", ascii "a b&c=d"), (ascii "empty", []), (ascii "page", ascii "50%#2")]

theorem comesBack_punctuation : ComesBack (queryOf punctuation) punctuation :=
  (comesBack_iff rfl rfl rfl (by decide) (by decide)).mpr (by decide)

/-- The space in the key is not decoded. -/
theorem spacedKey_not_comesBack :
    (queryOf [(ascii "a b", ascii "1")]).initQueryParam.params = [(ascii "a+b", ascii "1")] ∧
      ¬ ComesBack (queryOf [(ascii "a b", ascii "1")]) [(ascii "a b", ascii "1")] := by
  have hparams : (queryOf [(ascii "a b", ascii "1")]).initQueryParam.params =
      [(ascii "a+b", ascii "1")] := by
    rw [ParamRequest.initQueryParam, if_neg (by decide)]
    exact (parseParam_last (by decide : find (ascii "a+b=1") 61 0 = some 3) (by decide) _).trans
      (by decide)
  refine ⟨hparams, fun h => ?_⟩
  have hmem := (h (ascii "a b", ascii "1")).mpr (List.mem_singleton_self _)
  rw [hparams] at hmem
  exact absurd hmem (by decide)

end Query

end Http

end Saturn
