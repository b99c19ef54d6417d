import CodeGraph.Table.Set

/-!
# Dictionaries and sets of tables by look-up

A dictionary is known by what is found in it (`Dictionary.ext_get?`), and each operation by what is
found after it. A set of tables is well named when each table is filed under its own name
(`TableSet.Named`); adding, removing and merging keep it so, and say exactly which aliases are taken
afterwards.
-/

namespace CodeGraph

namespace Dictionary
variable {α : Type} {d d' : Dictionary α} {k k' : String} {v : α}

theorem lookup_cons_ite (e : String × α) (es : List (String × α)) (k : String) :
    (e :: es).lookup k = if k = e.1 then some e.2 else es.lookup k := by
  rw [List.lookup_cons]
  by_cases h : k = e.1
  · rw [if_pos h, h, beq_self_eq_true]
  · rw [if_neg h, beq_false_of_ne h]

theorem lookup_place (k k' : String) (v : α) (es : List (String × α)) :
    (place k v es).lookup k' = if k' = k then some v else es.lookup k' := by
  induction es with
  | nil => rw [place, lookup_cons_ite]
  | cons e es ih =>
    rw [place]
    by_cases hlt : k < e.1
    · rw [if_pos hlt, lookup_cons_ite]
    · rw [if_neg hlt]
      by_cases he : k = e.1
      · rw [if_pos he, lookup_cons_ite, lookup_cons_ite, ← he]
        by_cases h : k' = k <;> simp [h]
      · rw [if_neg he, lookup_cons_ite, lookup_cons_ite, ih]
        by_cases h : k' = k
        · rw [if_neg fun h' => he (h.symm.trans h'), if_pos h, if_pos h]
        · rw [if_neg h, if_neg h]

theorem get?_empty : (empty : Dictionary α).get? k = none := rfl

theorem get?_insert (d : Dictionary α) (k k' : String) (v : α) :
    (d.insert k v).get? k' = if k' = k then some v else d.get? k' := lookup_place ..

theorem get?_erase (d : Dictionary α) (k k' : String) :
    (d.erase k).get? k' = if k' = k then none else d.get? k' := by
  show (d.entries.filter fun e => e.1 != k).lookup k' = if k' = k then none else d.entries.lookup k'
  induction d.entries with
  | nil => simp
  | cons e es ih =>
    by_cases he : e.1 = k
    · rw [List.filter_cons_of_neg (by simpa using he), ih, lookup_cons_ite, he]
      by_cases h : k' = k <;> simp [h]
    · rw [List.filter_cons_of_pos (by simpa using he), lookup_cons_ite, lookup_cons_ite, ih]
      by_cases h : k' = k
      · rw [if_neg fun h' => he (h'.symm.trans h), if_pos h, if_pos h]
      · rw [if_neg h, if_neg h]

theorem lookup_tail_eq_none {e : String × α} {es : List (String × α)} (h : ∀ x ∈ es, e.1 < x.1) :
    es.lookup e.1 = none :=
  List.lookup_eq_none_iff.2 fun x hx => bne_iff_ne.2 fun heq =>
    String.lt_irrefl e.1 (by have := h x hx; rwa [← heq] at this)

theorem mem_entries_iff : (k, v) ∈ d.entries ↔ d.get? k = some v := by
  obtain ⟨es, hs⟩ := d
  show _ ∈ es ↔ es.lookup k = some v
  induction es with
  | nil => simp
  | cons e es ih =>
    obtain ⟨he, hes⟩ := List.pairwise_cons.1 hs
    rw [lookup_cons_ite, List.mem_cons]
    by_cases h : k = e.1
    · have hnone : (k, v) ∉ es := fun hm => by
        have := (ih hes).1 hm
        rw [h, lookup_tail_eq_none he] at this
        cases this
      rw [if_pos h, Option.some.injEq]
      constructor
      · rintro (heq | hm)
        · rw [← heq]
        · exact absurd hm hnone
      · intro heq
        exact Or.inl (by rw [h, ← heq])
    · rw [if_neg h, ih hes]
      exact ⟨fun hm => hm.resolve_left fun heq => h (by rw [← heq]), Or.inr⟩

theorem keys_ne {d : Dictionary α} : d.entries.Pairwise fun a b => a.1 ≠ b.1 :=
  d.sorted.imp fun {a b} hlt (heq : a.1 = b.1) => String.lt_irrefl b.1 (by rwa [heq] at hlt)

theorem ext_get? (h : ∀ k, d.get? k = d'.get? k) : d = d' := by
  have hnd : ∀ d : Dictionary α, d.entries.Nodup := fun d =>
    keys_ne.imp fun {a b} hne heq => hne (congrArg Prod.fst heq)
  have hperm : d.entries.Perm d'.entries :=
    (List.perm_ext_iff_of_nodup (hnd d) (hnd d')).2 fun e => by
      rw [mem_entries_iff (k := e.1) (v := e.2), h, ← mem_entries_iff]
  have heq : d.entries = d'.entries :=
    hperm.eq_of_pairwise (fun _ _ _ _ hab hba => absurd hba (String.lt_asymm hab)) d.sorted d'.sorted
  cases d; cases d'; cases heq; rfl

theorem contains_iff : d.contains k = true ↔ ∃ v, d.get? k = some v := by
  unfold contains
  rw [Option.isSome_iff_exists]

theorem contains_eq_false_iff : d.contains k = false ↔ d.get? k = none := by
  unfold contains
  rw [Option.isSome_eq_false_iff, Option.isNone_iff_eq_none]

theorem mem_keys_iff : k ∈ d.keys ↔ d.contains k = true := by
  unfold keys
  rw [List.mem_map, contains_iff]
  constructor
  · rintro ⟨⟨k', v⟩, he, rfl⟩
    exact ⟨v, mem_entries_iff.1 he⟩
  · rintro ⟨v, hv⟩
    exact ⟨(k, v), mem_entries_iff.2 hv, rfl⟩

theorem nodup_keys (d : Dictionary α) : d.keys.Nodup :=
  List.pairwise_map.2 keys_ne

theorem get?_foldl_insert (d' d : Dictionary α) (k : String) :
    (d'.entries.foldl (fun d (name, v) => d.insert name v) d).get? k = (d'.get? k).or (d.get? k) := by
  obtain ⟨es, hs⟩ := d'
  show _ = (es.lookup k).or _
  induction es generalizing d with
  | nil => rfl
  | cons e es ih =>
    obtain ⟨he, hes⟩ := List.pairwise_cons.1 hs
    rw [List.foldl_cons, ih _ hes, get?_insert, lookup_cons_ite]
    by_cases h : k = e.1
    · rw [if_pos h, if_pos h, h, lookup_tail_eq_none he]
      rfl
    · rw [if_neg h, if_neg h]

end Dictionary

namespace TableSet
variable {s s' s'' : TableSet} {a : String} {t : Table}

def get? (s : TableSet) (a : String) : Option Table := s.tables.get? a

/-- Every table is filed under its own name. -/
def Named (s : TableSet) : Prop := ∀ a t, s.get? a = some t → t.name = a

theorem ext_get? (h : ∀ a, s.get? a = s'.get? a) : s = s' := by
  cases s; cases s'
  exact congrArg TableSet.mk (Dictionary.ext_get? h)

theorem get?_empty (a : String) : empty.get? a = none := rfl

theorem named_empty : empty.Named := fun _ _ h => nomatch h

theorem contains_iff : s.contains a = true ↔ ∃ t, s.get? a = some t := Dictionary.contains_iff

theorem contains_eq_false_iff : s.contains a = false ↔ s.get? a = none :=
  Dictionary.contains_eq_false_iff

theorem table_eq_ok_iff : s.table a = .ok t ↔ s.get? a = some t := by
  unfold table
  show _ ↔ s.tables.get? a = some t
  cases s.tables.get? a <;> simp

theorem table_of_none (h : s.get? a = none) : s.table a = .error (.notFound "table" a) := by
  unfold table
  rw [show s.tables.get? a = none from h]

theorem add_eq : s.add t =
    match s.get? t.name with
    | some _ => .error (.duplicateName "table" t.name)
    | none => .ok ⟨s.tables.insert t.name t⟩ := by
  unfold add
  cases h : s.get? t.name with
  | some u => rw [if_pos (contains_iff.2 ⟨u, h⟩)]
  | none => rw [if_neg (by rw [contains_eq_false_iff.2 h]; exact Bool.false_ne_true)]

theorem add_of_none (h : s.get? t.name = none) : s.add t = .ok ⟨s.tables.insert t.name t⟩ := by
  rw [add_eq, h]

theorem get?_insert (s : TableSet) (t : Table) (a : String) :
    (TableSet.mk (s.tables.insert t.name t)).get? a = if a = t.name then some t else s.get? a :=
  Dictionary.get?_insert ..

theorem Named.insert (h : s.Named) (t : Table) :
    (TableSet.mk (s.tables.insert t.name t)).Named := by
  intro a u hu
  rw [get?_insert] at hu
  split at hu
  · next ha => cases hu; exact ha.symm
  · exact h a u hu

theorem foldlM_add {ts : List Table} (hn : (ts.map (·.name)).Nodup)
    (hfree : ∀ t ∈ ts, s.get? t.name = none) :
    ∃ m, ts.foldlM add s = .ok m ∧
      ∀ a u, m.get? a = some u ↔ (u ∈ ts ∧ u.name = a) ∨ s.get? a = some u := by
  induction ts generalizing s with
  | nil => exact ⟨s, rfl, fun a u => by simp⟩
  | cons t ts ih =>
    rw [List.map_cons, List.nodup_cons] at hn
    have hrest : ∀ u ∈ ts, (TableSet.mk (s.tables.insert t.name t)).get? u.name = none := by
      intro u hu
      have hne : u.name ≠ t.name := fun he => hn.1 (he ▸ List.mem_map_of_mem hu)
      rw [get?_insert, if_neg hne]
      exact hfree u (List.mem_cons_of_mem _ hu)
    obtain ⟨m, hm, hget⟩ := ih hn.2 hrest
    refine ⟨m, ?_, fun a u => ?_⟩
    · rw [List.foldlM_cons, add_of_none (hfree t (List.mem_cons_self ..))]
      exact hm
    · rw [hget, get?_insert, List.mem_cons]
      by_cases ha : a = t.name
      · have hnone := hfree t (List.mem_cons_self ..)
        rw [if_pos ha, ha, hnone, Option.some.injEq]
        constructor
        · rintro (⟨hu, hname⟩ | rfl)
          · exact Or.inl ⟨Or.inr hu, hname⟩
          · exact Or.inl ⟨Or.inl rfl, rfl⟩
        · rintro (⟨rfl | hu, hname⟩ | h)
          · exact Or.inr rfl
          · exact Or.inl ⟨hu, hname⟩
          · cases h
      · rw [if_neg ha]
        constructor
        · rintro (⟨hu, hname⟩ | h)
          · exact Or.inl ⟨Or.inr hu, hname⟩
          · exact Or.inr h
        · rintro (⟨rfl | hu, hname⟩ | h)
          · exact absurd hname.symm ha
          · exact Or.inl ⟨hu, hname⟩
          · exact Or.inr h

theorem get?_erase (s : TableSet) (a b : String) :
    (TableSet.mk (s.tables.erase a)).get? b = if b = a then none else s.get? b :=
  Dictionary.get?_erase ..

theorem Named.erase (h : s.Named) (a : String) : (TableSet.mk (s.tables.erase a)).Named := by
  intro b u hu
  rw [get?_erase] at hu
  split at hu
  · cases hu
  · exact h b u hu

theorem remove_of_some (h : s.get? a = some t) :
    s.remove a = .ok (t, ⟨s.tables.erase a⟩) := by
  unfold remove
  rw [table_eq_ok_iff.2 h]
  rfl

theorem remove_of_none (h : s.get? a = none) : s.remove a = .error (.notFound "table" a) := by
  unfold remove
  rw [table_of_none h]
  rfl

theorem merge_of_disjoint (h : ∀ a t, s'.get? a = some t → s.get? a = none) :
    ∃ m, s.merge s' = .ok m ∧ ∀ a, m.get? a = (s'.get? a).or (s.get? a) := by
  have hfind : s'.aliases.find? s.contains = none := by
    refine List.find?_eq_none.2 fun a ha => ?_
    obtain ⟨t, ht⟩ := contains_iff.1 (Dictionary.mem_keys_iff.1 ha)
    rw [contains_eq_false_iff.2 (h a t ht)]
    exact Bool.false_ne_true
  unfold merge
  rw [hfind]
  exact ⟨_, rfl, fun a => Dictionary.get?_foldl_insert ..⟩

theorem mem_aliases_iff : a ∈ s.aliases ↔ ∃ t, s.get? a = some t :=
  Dictionary.mem_keys_iff.trans contains_iff

theorem nodup_aliases (s : TableSet) : s.aliases.Nodup := Dictionary.nodup_keys s.tables

theorem aliases_insert (h : s.get? t.name = none) :
    (TableSet.mk (s.tables.insert t.name t)).aliases.Perm (t.name :: s.aliases) := by
  have hnot : t.name ∉ s.aliases := by
    rw [mem_aliases_iff, h]
    rintro ⟨u, hu⟩
    cases hu
  refine (List.perm_ext_iff_of_nodup (nodup_aliases _) (List.nodup_cons.2 ⟨hnot, s.nodup_aliases⟩)).2
    fun a => ?_
  rw [mem_aliases_iff, get?_insert, List.mem_cons, mem_aliases_iff]
  by_cases ha : a = t.name
  · rw [if_pos ha]
    exact ⟨fun _ => Or.inl ha, fun _ => ⟨t, rfl⟩⟩
  · rw [if_neg ha]
    exact ⟨Or.inr, fun h => h.resolve_left ha⟩

theorem onlyTable_of_get? (h : ∀ b, s.get? b = if b = a then some t else none) :
    s.onlyTable = .ok t := by
  have hs : s = ⟨Dictionary.empty.insert a t⟩ := ext_get? fun b => by
    rw [h]
    show _ = Dictionary.get? _ b
    rw [Dictionary.get?_insert]
    rfl
  rw [hs]
  rfl

end TableSet

end CodeGraph
