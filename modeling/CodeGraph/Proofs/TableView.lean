import Mathlib.Data.List.Forall2
import CodeGraph.Proofs.Listing
import CodeGraph.Table.Basic

/-!
# What tables show

A table shows records when field by field its columns have the cells, as they are seen, of the
records in order (`Table.Shows`). Such a table gives the records back as its rows; it takes one more
record as a row and one more field as a column, and it can be projected to some of its fields. Cells
in which everything is bound are seen alike while more is bound, so that the table goes on to show
what it showed.
-/

namespace CodeGraph

section
variable {α β γ ε : Type} {R : α → β → Prop} {S : γ → β → Prop} {f : α → Except ε γ}

theorem ok_bind (a : α) (f : α → Except ε γ) : Except.ok a >>= f = f a := rfl

theorem exists_mapM_forall₂ {as : List α} {bs : List β} (h : List.Forall₂ R as bs)
    (hf : ∀ a b, R a b → ∃ c, f a = .ok c ∧ S c b) :
    ∃ cs, as.mapM f = .ok cs ∧ List.Forall₂ S cs bs := by
  induction h with
  | nil => exact ⟨[], rfl, .nil⟩
  | @cons a b as bs hab _ ih =>
    obtain ⟨c, hc, hS⟩ := hf a b hab
    obtain ⟨cs, hcs, hSs⟩ := ih
    refine ⟨c :: cs, ?_, .cons hS hSs⟩
    rw [List.mapM_cons, hc, hcs]
    rfl

theorem forall₂_of_mem {R' : α → β → Prop} {as : List α} {bs : List β} (h : List.Forall₂ R as bs)
    (hR : ∀ a, ∀ b ∈ bs, R a b → R' a b) : List.Forall₂ R' as bs := by
  induction h with
  | nil => exact .nil
  | cons hab _ ih =>
    exact .cons (hR _ _ (List.mem_cons_self ..) hab)
      (ih fun a b hb => hR a b (List.mem_cons_of_mem _ hb))

theorem forall₂_of_both {T : α → γ → Prop} {as : List α} {bs : List β} {cs : List γ}
    (h : List.Forall₂ R as bs) (h' : List.Forall₂ S cs bs)
    (hT : ∀ a c, ∀ b ∈ bs, R a b → S c b → T a c) : List.Forall₂ T as cs := by
  induction h generalizing cs with
  | nil =>
    cases h'
    exact .nil
  | cons hab _ ih =>
    cases h' with
    | cons hcb h' =>
      exact .cons (hT _ _ _ (List.mem_cons_self ..) hab hcb)
        (ih h' fun a c b hb => hT a c b (List.mem_cons_of_mem _ hb))

theorem forall_mem_of_forall₂ {p : α → Prop} {as : List α} {bs : List β} (h : List.Forall₂ R as bs)
    (hp : ∀ a b, R a b → p a) : ∀ a ∈ as, p a := by
  induction h with
  | nil => simp
  | cons hab _ ih => exact List.forall_mem_cons.2 ⟨hp _ _ hab, ih⟩

theorem exists_mem_of_forall₂ {as : List α} {bs : List β} (h : List.Forall₂ R as bs) :
    ∀ b ∈ bs, ∃ a ∈ as, R a b := by
  induction h with
  | nil => simp
  | @cons a b as bs hab _ ih =>
    refine List.forall_mem_cons.2 ⟨⟨a, List.mem_cons_self .., hab⟩, fun b' hb' => ?_⟩
    obtain ⟨a', ha', hab'⟩ := ih b' hb'
    exact ⟨a', List.mem_cons_of_mem _ ha', hab'⟩

theorem map_eq_map_of_forall₂ {δ : Type} {u : γ → δ} {v : β → δ} {cs : List γ} {bs : List β}
    (h : List.Forall₂ (fun c b => u c = v b) cs bs) : cs.map u = bs.map v := by
  induction h with
  | nil => rfl
  | cons hcb _ ih => rw [List.map_cons, List.map_cons, hcb, ih]

theorem mapM_eq_ok {f : α → Except ε β} {g : γ → β} {xs : List α} {zs : List γ}
    (h : List.Forall₂ (fun x z => f x = .ok (g z)) xs zs) : xs.mapM f = .ok (zs.map g) := by
  induction h with
  | nil => rfl
  | cons hxz _ ih =>
    rw [List.mapM_cons, hxz, ih]
    rfl

theorem mapM_eq_ok_of_forall₂ {f : α → Except ε β} {xs : List α} {ys : List β}
    (h : List.Forall₂ (fun x y => f x = .ok y) xs ys) : xs.mapM f = .ok ys := by
  rw [mapM_eq_ok (g := id) h, List.map_id]

theorem length_of_mapM_eq_ok {f : α → Except ε β} {xs : List α} {ys : List β}
    (h : xs.mapM f = .ok ys) : ys.length = xs.length := by
  induction xs generalizing ys with
  | nil =>
    cases h
    rfl
  | cons x xs ih =>
    rw [List.mapM_cons] at h
    cases hx : f x with
    | error e =>
      rw [hx] at h
      cases h
    | ok y =>
      rw [hx, ok_bind] at h
      cases hxs : xs.mapM f with
      | error e =>
        rw [hxs] at h
        cases h
      | ok ys =>
        rw [hxs] at h
        cases h
        rw [List.length_cons, List.length_cons, ih hxs]

theorem exists_forall₂ {xs : List α} (h : ∀ x ∈ xs, ∃ y, R x y) :
    ∃ ys, List.Forall₂ R xs ys := by
  induction xs with
  | nil => exact ⟨[], .nil⟩
  | cons x xs ih =>
    rw [List.forall_mem_cons] at h
    obtain ⟨y, hy⟩ := h.1
    obtain ⟨ys, hys⟩ := ih h.2
    exact ⟨y :: ys, .cons hy hys⟩

end

/-! ### Cells -/

theorem Tree.mapAll_eq_map {ι κ : Type} (f : ι → κ) (ts : List (Tree ι)) :
    mapAll f ts = ts.map (map f) := by
  induction ts with
  | nil => rfl
  | cons t ts ih => rw [mapAll, ih, List.map_cons]

def Seen.Bound (s : Seen) : Prop := ∀ u ∈ s.preorder, ∃ id, u.tag = .vertex id

def Cell.Bound : Cell Identity → Prop
  | .null | .text _ => True
  | .value s => Seen.Bound s
  | .path p => ∀ s ∈ p, Seen.Bound s

theorem Reading.Owned.bound {r : Reading} (h : r.Owned) : Seen.Bound r.value :=
  fun u hu => ⟨r.id, h u hu⟩

namespace Bindings
variable {b b' : Bindings}

theorem Extends.view_eq (he : b.Extends b') {v : Value} (h : Seen.Bound (b.view v)) :
    b'.view v = b.view v := by
  refine v.map_congr fun u hu => ?_
  obtain ⟨id, hid⟩ := h (b.view u) (by rw [view_preorder]; exact List.mem_map_of_mem hu)
  have htag : b.identity u.tag = .vertex id := (Tree.tag_map b.identity u).symm.trans hid
  rw [htag]
  exact identity_eq_vertex_iff.2 (he _ _ (identity_eq_vertex_iff.1 htag))

theorem Extends.map_cell_eq (he : b.Extends b') {c : Cell Ref} (h : (c.map b.identity).Bound) :
    c.map b'.identity = c.map b.identity := by
  cases c with
  | null | text => rfl
  | value v => exact congrArg Cell.value (he.view_eq h)
  | path p =>
    refine congrArg Cell.path ?_
    rw [Tree.mapAll_eq_map, Tree.mapAll_eq_map]
    refine List.map_congr_left fun v hv => he.view_eq (h _ ?_)
    rw [Tree.mapAll_eq_map]
    exact List.mem_map_of_mem hv

theorem Extends.map_cells_eq (he : b.Extends b') {cells : List (Cell Ref)}
    (h : ∀ s ∈ cells.map (Cell.map b.identity), s.Bound) :
    cells.map (Cell.map b'.identity) = cells.map (Cell.map b.identity) :=
  List.map_congr_left fun _ hc => he.map_cell_eq (h _ (List.mem_map_of_mem hc))

end Bindings

/-! ### Columns -/

namespace Column
variable {b b' : Bindings} {c : Column} {ss : List (Cell Identity)}

/-- The cells of a column as they are seen. -/
def Shows (b : Bindings) (c : Column) (ss : List (Cell Identity)) : Prop :=
  ∃ cells, c.cells = .ok cells ∧ cells.toList.map (Cell.map b.identity) = ss

namespace Shows

theorem mono (h : c.Shows b ss) (hb : ∀ s ∈ ss, s.Bound) (he : b.Extends b') : c.Shows b' ss := by
  obtain ⟨cells, hcells, rfl⟩ := h
  exact ⟨cells, hcells, he.map_cells_eq hb⟩

theorem not_predicate (h : c.Shows b ss) : c.isPredicate = false := by
  obtain ⟨cells, hcells, -⟩ := h
  cases c with
  | data | any => rfl
  | predicate => cases hcells

theorem size_eq (h : c.Shows b ss) : c.size = ss.length := by
  obtain ⟨cells, hcells, rfl⟩ := h
  rw [List.length_map, Array.length_toList]
  cases c with
  | data | any => cases hcells; rfl
  | predicate => cases hcells

theorem cell (h : c.Shows b ss) {i : Nat} {s : Cell Identity} (hs : ss[i]? = some s) :
    ∃ cell, c.cell i = .ok cell ∧ cell.map b.identity = s := by
  obtain ⟨cells, hcells, rfl⟩ := h
  rw [List.getElem?_map, Array.getElem?_toList] at hs
  obtain ⟨cell, hcell, rfl⟩ := Option.map_eq_some_iff.1 hs
  refine ⟨cell, ?_, rfl⟩
  unfold Column.cell
  rw [hcells, ok_bind, hcell]
  rfl

theorem push (h : c.Shows b ss) (cell : Cell Ref) :
    ∃ c', c.push b cell = .ok c' ∧ c'.name = c.name ∧ c'.Shows b (ss ++ [cell.map b.identity]) := by
  obtain ⟨cells, hcells, rfl⟩ := h
  have hpush : (cells.push cell).toList.map (Cell.map b.identity) =
      cells.toList.map (Cell.map b.identity) ++ [cell.map b.identity] := by
    rw [Array.toList_push, List.map_append, List.map_singleton]
  cases c with
  | data d =>
    cases hcells
    exact ⟨_, rfl, rfl, _, rfl, hpush⟩
  | any n _ =>
    cases hcells
    exact ⟨_, rfl, rfl, _, rfl, hpush⟩
  | predicate => cases hcells

end Shows

end Column

/-! ### Tables -/

namespace Table
variable {X : Type} {b b' : Bindings} {t : Table} {fields : List (String × (X → Cell Identity))}
  {xs : List X} {x : X}

theorem hasColumn_eq_decide (t : Table) (name : String) : t.hasColumn name = decide (name ∈ t.headers) := by
  unfold hasColumn column? headers
  rw [List.isSome_find?, Bool.eq_iff_iff, List.any_eq_true, decide_eq_true_iff, List.mem_map]
  simp only [beq_iff_eq]

theorem addRow_eq_ok {row : Row Ref} {ds : List Column}
    (h : List.Forall₂ (fun c d => c.push b ((row.lookup c.name).getD .null) = .ok d) t.columns ds) :
    t.addRow b row = .ok { t with size := t.size + 1, columns := ds } := by
  have hno : t.hasPredicate = false := by
    refine List.any_eq_false.2 (forall_mem_of_forall₂ h fun c d hd => ?_)
    cases c with
    | data | any => exact Bool.false_ne_true
    | predicate => cases hd
  unfold Table.addRow
  rw [hno, if_neg Bool.false_ne_true, mapM_eq_ok_of_forall₂ h]
  rfl

/-- The columns of a table are these fields of these records. -/
structure Shows (b : Bindings) (t : Table) (fields : List (String × (X → Cell Identity)))
    (xs : List X) : Prop where
  columns : List.Forall₂ (fun c f => c.name = f.1 ∧ c.Shows b (xs.map f.2)) t.columns fields
  size : fields ≠ [] → t.size = xs.length

namespace Shows

theorem mono (h : t.Shows b fields xs) (hb : ∀ f ∈ fields, ∀ x ∈ xs, (f.2 x).Bound)
    (he : b.Extends b') : t.Shows b' fields xs := by
  refine ⟨forall₂_of_mem h.columns fun c f hf hc => ⟨hc.1, hc.2.mono (fun s hs => ?_) he⟩, h.size⟩
  obtain ⟨x, hx, rfl⟩ := List.mem_map.1 hs
  exact hb f hf x hx

theorem hasPredicate_eq (h : t.Shows b fields xs) : t.hasPredicate = false := by
  unfold hasPredicate
  refine List.any_eq_false.2 fun c hc => ?_
  rw [forall_mem_of_forall₂ h.columns (fun c _ hc => hc.2.not_predicate) c hc]
  exact Bool.false_ne_true

theorem addRow (h : t.Shows b fields xs) {row : Row Ref}
    (hrow : ∀ f ∈ fields, ((row.lookup f.1).getD .null).map b.identity = f.2 x) :
    ∃ t', t.addRow b row = .ok t' ∧ t'.name = t.name ∧ t'.Shows b fields (xs ++ [x]) := by
  unfold Table.addRow
  rw [h.hasPredicate_eq]
  have hmem : List.Forall₂ (fun c f => f ∈ fields ∧ c.name = f.1 ∧ c.Shows b (xs.map f.2))
      t.columns fields := forall₂_of_mem h.columns fun c f hf hc => ⟨hf, hc⟩
  obtain ⟨cs, hcs, hshows⟩ := exists_mapM_forall₂
    (f := fun c : Column => c.push b ((row.lookup c.name).getD .null))
    (S := fun c f => c.name = f.1 ∧ c.Shows b ((xs ++ [x]).map f.2)) hmem fun c f hc => by
      obtain ⟨hf, hname, hc⟩ := hc
      obtain ⟨c', hpush, hname', hc'⟩ := hc.push ((row.lookup c.name).getD .null)
      refine ⟨c', hpush, hname'.trans hname, ?_⟩
      rw [List.map_append, List.map_singleton, ← hrow f hf, ← hname]
      exact hc'
  refine ⟨{ t with size := t.size + 1, columns := cs }, ?_, rfl, hshows, fun hne => ?_⟩
  · rw [if_neg Bool.false_ne_true, hcs]
    rfl
  · show t.size + 1 = _
    rw [h.size hne, List.length_append, List.length_singleton, Int.natCast_add, Int.natCast_one]

theorem new (b : Bindings) (name : String) (xs : List X) : (Table.new name).Shows b [] xs :=
  ⟨.nil, fun hne => absurd rfl hne⟩

theorem names (h : t.Shows b fields xs) : t.columns.map (·.name) = fields.map (·.1) :=
  map_eq_map_of_forall₂ (h.columns.imp fun _ _ hc => hc.1)

theorem column? (h : t.Shows b fields xs) (hn : (fields.map (·.1)).Nodup)
    {f : String × (X → Cell Identity)} (hf : f ∈ fields) :
    ∃ c, t.column? f.1 = some c ∧ c.name = f.1 ∧ c.Shows b (xs.map f.2) := by
  have hcols := h.columns
  unfold Table.column?
  generalize t.columns = cs at hcols ⊢
  clear h
  induction hcols with
  | nil => cases hf
  | @cons c f' cs fs hc _ ih =>
    rw [List.map_cons, List.nodup_cons] at hn
    rcases List.mem_cons.1 hf with rfl | hf
    · exact ⟨c, List.find?_cons_of_pos (beq_iff_eq.2 hc.1), hc⟩
    · have hne : c.name ≠ f.1 := fun he => hn.1 (List.mem_map.2 ⟨f, hf, by rw [← he, hc.1]⟩)
      rw [List.find?_cons_of_neg (by simpa using hne)]
      exact ih hn.2 hf

theorem hasColumn_eq (h : t.Shows b fields xs) {name : String} (hn : name ∉ fields.map (·.1)) :
    t.hasColumn name = false := by
  rw [← h.names] at hn
  unfold hasColumn Table.column?
  rw [Option.isSome_eq_false_iff, Option.isNone_iff_eq_none, List.find?_eq_none]
  exact fun c hc he => hn (List.mem_map.2 ⟨c, hc, eq_of_beq he⟩)

theorem addColumn (h : t.Shows b fields xs) {c : Column} {g : X → Cell Identity}
    (hn : c.name ∉ fields.map (·.1)) (hc : c.Shows b (xs.map g)) :
    ∃ t', t.addColumn b c = .ok t' ∧ t'.name = t.name ∧
      t'.Shows b (fields ++ [(c.name, g)]) xs := by
  have hsize : c.size = xs.length := by rw [hc.size_eq, List.length_map]
  unfold Table.addColumn addColumnWithDefault
  rw [h.hasColumn_eq hn, if_neg Bool.false_ne_true]
  cases hcols : t.columns with
  | nil =>
    have hnil : fields = [] := by
      have := h.columns
      rw [hcols] at this
      cases this
      rfl
    rw [hnil]
    exact ⟨_, rfl, rfl, .cons ⟨rfl, hc⟩ .nil, fun _ => hsize⟩
  | cons c₀ cs =>
    have hne : fields ≠ [] := by
      rintro rfl
      have := h.columns
      rw [hcols] at this
      cases this
    have hmax : max t.size c.size = xs.length := by
      rw [h.size hne, hsize]
      omega
    rw [if_neg (by simp), ← hcols]
    simp only [hmax]
    rw [if_neg (by rw [h.size hne]; exact fun hlt => absurd hlt.1 (Int.lt_irrefl _)), hsize, h.size hne,
      Int.sub_self, Int.toNat_zero]
    obtain ⟨cs', hcs', hshows⟩ := exists_mapM_forall₂ (f := Column.pad b .null 0)
      (S := fun c f => c.name = f.1 ∧ c.Shows b (xs.map f.2)) h.columns fun c f hcf => ⟨c, rfl, hcf⟩
    rw [hcs']
    refine ⟨_, rfl, rfl, ?_, fun _ => rfl⟩
    exact List.rel_append hshows (.cons ⟨rfl, hc⟩ .nil)

theorem project (h : t.Shows b fields xs) (hn : (fields.map (·.1)).Nodup)
    {chosen : List (String × (X → Cell Identity))} (hsub : chosen ⊆ fields)
    (hc : (chosen.map (·.1)).Nodup) :
    ∃ t', t.project b (chosen.map (·.1)) = .ok t' ∧ t'.Shows b chosen xs := by
  have hgen : ∀ (r : Table) (done : List (String × (X → Cell Identity))), r.Shows b done xs →
      ((done ++ chosen).map (·.1)).Nodup → ∃ t', (chosen.map (·.1)).foldlM (fun result name =>
        result.addColumn b ((t.column? name).getD (.filled name (.text name) t.rowCount))) r =
          .ok t' ∧ t'.Shows b (done ++ chosen) xs := by
    induction chosen with
    | nil => exact fun r done hr _ => ⟨r, rfl, by rw [List.append_nil]; exact hr⟩
    | cons f chosen ih =>
      intro r done hr hnd
      obtain ⟨c, hfind, hname, hshows⟩ := h.column? hn (hsub (List.mem_cons_self ..))
      have hnew : c.name ∉ done.map (·.1) := by
        rw [List.map_append, List.nodup_append] at hnd
        rw [hname]
        exact fun hm => hnd.2.2 f.1 hm f.1 (List.mem_map_of_mem (List.mem_cons_self ..)) rfl
      obtain ⟨r', hadd, -, hr'⟩ := hr.addColumn hnew hshows
      rw [List.append_cons] at hnd
      obtain ⟨t', ht', hshows'⟩ := ih (fun x hx => hsub (List.mem_cons_of_mem _ hx))
        (List.nodup_cons.1 hc).2 r' (done ++ [f]) (by rw [hname] at hr'; exact hr') hnd
      refine ⟨t', ?_, by rw [List.append_cons]; exact hshows'⟩
      rw [List.map_cons, List.foldlM_cons, hfind, Option.getD_some, hadd]
      exact ht'
  exact hgen _ [] (new b t.name xs) hc

theorem row (h : t.Shows b fields xs) (hne : fields ≠ []) {i : Nat} (hx : xs[i]? = some x) :
    ∃ row, t.row i = .ok row ∧ b.viewRow row = fields.map fun f => (f.1, f.2 x) := by
  have hlt : i < t.rowCount := by
    unfold rowCount
    rw [h.size hne, Int.toNat_natCast]
    exact (List.getElem?_eq_some_iff.1 hx).1
  obtain ⟨row, hrow, hcells⟩ := exists_mapM_forall₂
    (f := fun c : Column => do return (c.name, ← c.cell i))
    (S := fun (p : String × Cell Ref) f => (p.1, p.2.map b.identity) = (f.1, f.2 x)) h.columns
    fun c f hc => by
      obtain ⟨cell, hcell, hview⟩ := hc.2.cell (i := i) (s := f.2 x) (by
        rw [List.getElem?_map, hx]
        rfl)
      refine ⟨(c.name, cell), ?_, by rw [hc.1, hview]⟩
      show c.cell i >>= _ = _
      rw [hcell]
      rfl
  refine ⟨row, ?_, map_eq_map_of_forall₂ hcells⟩
  unfold Table.row checkRow
  rw [if_pos hlt]
  exact hrow

theorem rows (h : t.Shows b fields xs) (hne : fields ≠ []) :
    ∃ rows, t.rows = .ok rows ∧
      rows.map b.viewRow = xs.map fun x => fields.map fun f => (f.1, f.2 x) := by
  have hrange : List.Forall₂ (fun i x => xs[i]? = some x) (List.range t.rowCount) xs := by
    have hcount : t.rowCount = xs.length := by
      unfold rowCount
      rw [h.size hne, Int.toNat_natCast]
    refine List.forall₂_iff_get.2 ⟨by rw [List.length_range, hcount], fun i hi hx => ?_⟩
    rw [List.get_eq_getElem, List.getElem_range, List.get_eq_getElem]
    exact List.getElem?_eq_getElem hx
  obtain ⟨rows, hrows, hview⟩ := exists_mapM_forall₂ (f := t.row) hrange fun i x hx => h.row hne hx
  exact ⟨rows, hrows, map_eq_map_of_forall₂ hview⟩

end Shows

end Table

end CodeGraph
