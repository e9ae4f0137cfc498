/-!
# Named fields in insertion order

Object values, object shapes and JSON objects all keep their entries in the
order in which the keys first appeared, with one entry per key. This file holds
the two operations that build such a list:

- `Fields.insert`: a new key goes to the end, a known key keeps its place and
  takes the new content;
- `Fields.ofPairs`: insertion of a whole list, from the left.

`Fields.keys_insert` and `Fields.lookup_insert` say what insertion does to the
two views of a field list, its keys and its look-up; `Fields.nodup_ofPairs`
says that what is built this way has one entry per key.
-/

namespace Conform

namespace Fields

variable {α : Type}

/-- The keys of a field list, in order. -/
def keys (fields : List (String × α)) : List String :=
  fields.map Prod.fst

@[simp] theorem keys_nil : keys ([] : List (String × α)) = [] := rfl

@[simp] theorem keys_cons (e : String × α) (fields : List (String × α)) :
    keys (e :: fields) = e.1 :: keys fields := rfl

/-- Give the key `k` the content `v`: in its place if the key is known, at the
end if it is new. -/
def insert (fields : List (String × α)) (k : String) (v : α) : List (String × α) :=
  match fields with
  | [] => [(k, v)]
  | (k', v') :: rest => if k' = k then (k, v) :: rest else (k', v') :: insert rest k v

/-- The field list built from pairs; a repeated key keeps its first place and
its last content. -/
def ofPairs (pairs : List (String × α)) : List (String × α) :=
  pairs.foldl (fun fields e => insert fields e.1 e.2) []

/-! ## The two views of an insertion -/

/-- Insertion adds a key at the end, and only if it is new. -/
theorem keys_insert (fields : List (String × α)) (k : String) (v : α) :
    keys (insert fields k v) = if k ∈ keys fields then keys fields else keys fields ++ [k] := by
  induction fields with
  | nil => simp [insert]
  | cons e rest ih =>
    obtain ⟨k', v'⟩ := e
    by_cases h : k' = k
    · simp [insert, h]
    · have h' : k ≠ k' := fun e => h e.symm
      by_cases hm : k ∈ keys rest <;> simp [insert, h, h', hm, ih]

/-- After an insertion the key has its new content, and all others their old. -/
theorem lookup_insert (fields : List (String × α)) (k x : String) (v : α) :
    (insert fields k v).lookup x = if x = k then some v else fields.lookup x := by
  induction fields with
  | nil =>
    by_cases h : x = k
    · simp [insert, h]
    · have hb : (x == k) = false := by simpa using h
      simp [insert, List.lookup_cons, h, hb]
  | cons e rest ih =>
    obtain ⟨k', v'⟩ := e
    by_cases h : k' = k
    · subst h
      by_cases hx : x = k'
      · simp [insert, hx]
      · have hb : (x == k') = false := by simpa using hx
        simp [insert, List.lookup_cons, hx, hb]
    · by_cases hx : x = k'
      · subst hx
        simp [insert, h]
      · have hb : (x == k') = false := by simpa using hx
        simp [insert, h, List.lookup_cons, hb, ih]

/-- Keys stay where they are when their contents are changed. -/
theorem keys_map {β : Type} (f : α → β) (fields : List (String × α)) :
    keys (fields.map fun e => (e.1, f e.2)) = keys fields := by
  rw [keys, keys, List.map_map]
  rfl

/-- A key is found with its changed content. -/
theorem lookup_map {β : Type} (f : α → β) (fields : List (String × α)) (k : String) :
    (fields.map fun e => (e.1, f e.2)).lookup k = (fields.lookup k).map f := by
  induction fields with
  | nil => rfl
  | cons e fields ih =>
    rw [List.map_cons, List.lookup_cons, List.lookup_cons, ih]
    cases k == e.1 with
    | true => rfl
    | false => rfl

/-- After all entries of a key are dropped, it has no content, and all others their old. -/
theorem lookup_filter_ne (fields : List (String × α)) (k x : String) :
    (fields.filter (·.1 ≠ k)).lookup x = if x = k then none else fields.lookup x := by
  induction fields with
  | nil => simp
  | cons e rest ih =>
    obtain ⟨k', v'⟩ := e
    by_cases h : k' = k
    · subst h
      by_cases hx : x = k'
      · simpa [hx] using ih
      · have hb : (x == k') = false := by simpa using hx
        simpa [List.lookup_cons, hx, hb] using ih
    · by_cases hx : x = k'
      · subst hx
        simp [h]
      · have hb : (x == k') = false := by simpa using hx
        simpa [List.lookup_cons, h, hb] using ih

/-- Insertion keeps keys distinct. -/
theorem nodup_insert {fields : List (String × α)} (h : (keys fields).Nodup) (k : String) (v : α) :
    (keys (insert fields k v)).Nodup := by
  rw [keys_insert]
  split
  · exact h
  · next hk =>
    rw [List.nodup_append]
    refine ⟨h, by simp, ?_⟩
    intro a ha b hb hab
    have : b = k := by simpa using hb
    exact hk (this ▸ hab ▸ ha)

/-- A field list built from pairs has one entry per key. -/
theorem nodup_ofPairs (pairs : List (String × α)) : (keys (ofPairs pairs)).Nodup := by
  suffices h : ∀ fields : List (String × α), (keys fields).Nodup →
      (keys (pairs.foldl (fun fields e => insert fields e.1 e.2) fields)).Nodup from
    h [] (by simp)
  induction pairs with
  | nil => exact fun _ h => h
  | cons e rest ih => exact fun fields h => ih _ (nodup_insert h e.1 e.2)

/-- What is in a list of fields after an insertion was there before, or is the new field. -/
theorem mem_insert {fields : List (String × α)} {k : String} {v : α} {e : String × α}
    (h : e ∈ insert fields k v) : e = (k, v) ∨ e ∈ fields := by
  induction fields with
  | nil => exact .inl (List.mem_singleton.mp h)
  | cons d rest ih =>
    rw [insert] at h
    split at h
    · rcases List.mem_cons.mp h with h | h
      · exact .inl h
      · exact .inr (List.mem_cons_of_mem _ h)
    · rcases List.mem_cons.mp h with rfl | h
      · exact .inr List.mem_cons_self
      · exact (ih h).imp_right (List.mem_cons_of_mem _)

/-- All fields of a list built from pairs are among the pairs. -/
theorem mem_ofPairs {pairs : List (String × α)} {e : String × α} (h : e ∈ ofPairs pairs) :
    e ∈ pairs := by
  suffices hfrom : ∀ fields : List (String × α),
      e ∈ pairs.foldl (fun fields d => insert fields d.1 d.2) fields → e ∈ fields ∨ e ∈ pairs from
    (hfrom [] h).resolve_left List.not_mem_nil
  clear h
  induction pairs with
  | nil => exact fun _ h => .inl h
  | cons d rest ih =>
    intro fields h
    rcases ih _ h with h | h
    · exact (mem_insert h).elim (fun h => .inr (h ▸ List.mem_cons_self)) .inl
    · exact .inr (List.mem_cons_of_mem _ h)

/-- A new key goes to the end. -/
theorem insert_of_not_mem {fields : List (String × α)} {k : String} (h : k ∉ keys fields) (v : α) :
    insert fields k v = fields ++ [(k, v)] := by
  induction fields with
  | nil => rfl
  | cons e rest ih =>
    obtain ⟨k', v'⟩ := e
    obtain ⟨hne, hrest⟩ : ¬ k = k' ∧ k ∉ keys rest := by simpa using h
    have hne' : ¬ k' = k := fun h => hne h.symm
    simp [insert, hne', ih hrest]

/-- Pairs with one entry per key are a field list as they are. -/
theorem ofPairs_of_nodup {pairs : List (String × α)} (h : (keys pairs).Nodup) :
    ofPairs pairs = pairs := by
  suffices hfrom : ∀ fields : List (String × α), (keys (fields ++ pairs)).Nodup →
      pairs.foldl (fun fields e => insert fields e.1 e.2) fields = fields ++ pairs from
    hfrom [] h
  induction pairs with
  | nil => simp
  | cons e rest ih =>
    intro fields hkeys
    have hnew : e.1 ∉ keys fields := by
      intro he
      rw [keys, List.map_append, List.nodup_append] at hkeys
      exact hkeys.2.2 e.1 he e.1 (by simp) rfl
    have hsplit : fields ++ e :: rest = fields ++ [e] ++ rest := by simp
    rw [List.foldl_cons, insert_of_not_mem hnew, hsplit]
    refine ih (List.nodup_cons.mp h).2 _ ?_
    rwa [← hsplit]

end Fields

end Conform
