import Mathlib.Data.List.Nodup
import CodeGraph.Proofs.EmptyColumn
import CodeGraph.Proofs.Findings

/-!
# The rows of a flow's result

A table lists records when each of its columns has the cells of the records in order (`Table.Lists`).
It takes the cells of one more record as a row, and its rows are the records. The result of a flow lists
its findings so: a new one lists nothing, and a finding that is recorded comes last
(`FlowResult.Lists.wpE_emit`).
-/

namespace CodeGraph

theorem exists_of_bind_eq_ok {α β ε : Type} {x : Except ε α} {f : α → Except ε β} {b : β}
    (h : x >>= f = .ok b) : ∃ a, x = .ok a ∧ f a = .ok b := by
  cases x with
  | error e => cases h
  | ok a => exact ⟨a, rfl, h⟩

theorem Column.exists_push_cells {c : Column} {cells : Array (Cell Ref)} (h : c.cells = .ok cells)
    (b : Bindings) (cell : Cell Ref) :
    ∃ c', c.push b cell = .ok c' ∧ c'.name = c.name ∧ c'.cells = .ok (cells.push cell) := by
  cases c with
  | data | any =>
    cases h
    exact ⟨_, rfl, rfl, rfl⟩
  | predicate => cases h

namespace Table
variable {X : Type} {t : Table} {fields : List (String × (X → Cell Ref))} {xs : List X} {x : X}

/-- The columns of the table are these fields of these records. -/
structure Lists (t : Table) (fields : List (String × (X → Cell Ref))) (xs : List X) : Prop where
  columns : List.Forall₂ (fun c f => c.name = f.1 ∧ c.cells = .ok (xs.map f.2).toArray) t.columns fields
  size : t.size = xs.length

theorem lists_new (name : String) : (Table.new name).Lists (X := X) [] [] := ⟨.nil, rfl⟩

namespace Lists

theorem of_addColumn (h : t.Lists fields []) {b : Bindings} {c : Column} {t' : Table}
    (hadd : t.addColumn b c = .ok t') (hc : c.cells = .ok #[]) (g : X → Cell Ref) :
    c.name ∉ fields.map (·.1) ∧ t'.Lists (fields ++ [(c.name, g)]) [] := by
  have hsize : c.size = t.size := by
    rw [h.size]
    cases c with
    | data | any => exact congrArg (fun cells => (cells.size : Int)) (Except.ok.inj hc)
    | predicate => cases hc
  have hheaders : t.headers = fields.map (·.1) :=
    map_eq_map_of_forall₂ (h.columns.imp fun _ _ hc => hc.1)
  rw [addColumn_of_size hsize, hheaders] at hadd
  split at hadd
  · cases hadd
  · next hnew =>
    cases hadd
    exact ⟨hnew, List.rel_append h.columns (.cons ⟨rfl, hc⟩ .nil), h.size⟩

theorem hasPredicate_eq (h : t.Lists fields xs) : t.hasPredicate = false := by
  refine List.any_eq_false.2 (forall_mem_of_forall₂ h.columns fun c f hc => ?_)
  cases c with
  | data | any => exact Bool.false_ne_true
  | predicate => cases hc.2

theorem addRow (h : t.Lists fields xs) (b : Bindings) {row : Row Ref}
    (hrow : ∀ f ∈ fields, (row.lookup f.1).getD .null = f.2 x) :
    ∃ t', t.addRow b row = .ok t' ∧ t'.Lists fields (xs ++ [x]) := by
  have hcolumns : List.Forall₂ (fun c f => f ∈ fields ∧ c.name = f.1 ∧ c.cells = .ok (xs.map f.2).toArray)
      t.columns fields := forall₂_of_mem h.columns fun _ _ hf hc => ⟨hf, hc⟩
  obtain ⟨cs, hcs, hlists⟩ := exists_mapM_forall₂
    (f := fun c : Column => c.push b ((row.lookup c.name).getD .null))
    (S := fun c f => c.name = f.1 ∧ c.cells = .ok ((xs ++ [x]).map f.2).toArray)
    hcolumns fun c f hc => by
      obtain ⟨hf, hname, hcells⟩ := hc
      obtain ⟨d, hpush, hname', hcells'⟩ := Column.exists_push_cells hcells b
        ((row.lookup c.name).getD .null)
      refine ⟨d, hpush, hname'.trans hname, ?_⟩
      rw [hcells', hname, hrow f hf, List.push_toArray, List.map_append, List.map_singleton]
  refine ⟨{ t with size := t.size + 1, columns := cs }, ?_, hlists, ?_⟩
  · rw [Table.addRow, h.hasPredicate_eq, if_neg Bool.false_ne_true, hcs]
    rfl
  · show t.size + 1 = _
    rw [h.size, List.length_append, List.length_singleton, Int.natCast_add, Int.natCast_one]

theorem rowCount_eq (h : t.Lists fields xs) : t.rowCount = xs.length := by
  rw [rowCount, h.size, Int.toNat_natCast]

theorem rows (h : t.Lists fields xs) :
    t.rows = .ok (xs.map fun x => fields.map fun f => (f.1, f.2 x)) := by
  refine mapM_eq_ok (List.forall₂_iff_get.2 ⟨by rw [List.length_range, h.rowCount_eq], fun i hi hx => ?_⟩)
  rw [List.get_eq_getElem, List.getElem_range, List.get_eq_getElem]
  have hlt : i < t.rowCount := h.rowCount_eq.symm ▸ hx
  refine row_eq_ok hlt (List.forall₂_map_right_iff.2 (h.columns.imp fun c f hc => ⟨hc.1, ?_⟩))
  rw [Column.cell, hc.2, ok_bind, List.getElem?_toArray, List.getElem?_map, List.getElem?_eq_getElem hx]
  rfl

end Lists

end Table

namespace FlowResult
variable {b : Bindings} {al : FlowAliases} {r : FlowResult} {xs : List Finding} {x : Finding} {w : World}

/-- The result has these findings as its rows. -/
structure Lists (al : FlowAliases) (r : FlowResult) (xs : List Finding) : Prop where
  names : al.names.Nodup
  aliases : r.aliases = al
  table : r.table.Lists al.cells xs

theorem lists_of_new (h : FlowResult.new b al = .ok r) : r.Lists al [] := by
  unfold FlowResult.new at h
  obtain ⟨t₁, h₁, h⟩ := exists_of_bind_eq_ok h
  obtain ⟨t₂, h₂, h⟩ := exists_of_bind_eq_ok h
  obtain ⟨hsource, l₁⟩ := (Table.lists_new al.name).of_addColumn h₁ rfl fun x : Finding => .value x.source
  obtain ⟨hsink, l₂⟩ := l₁.of_addColumn h₂ rfl fun x => .value x.sink
  cases hb : al.barrier with
  | none =>
    rw [hb] at h
    obtain ⟨t₃, h₃, h⟩ := exists_of_bind_eq_ok (x := t₂.addColumn b (.any al.name #[])) h
    obtain ⟨hname, l₃⟩ := l₂.of_addColumn h₃ rfl fun x => .path x.path
    cases h
    refine ⟨?_, rfl, ?_⟩
    · rw [FlowAliases.names, hb]
      exact .concat hname (.concat hsink (List.nodup_singleton _))
    · rw [FlowAliases.cells, hb]
      exact l₃
  | some n =>
    rw [hb] at h
    obtain ⟨t₃, h₃, h⟩ := exists_of_bind_eq_ok h
    obtain ⟨t₄, h₄, h⟩ := exists_of_bind_eq_ok h
    obtain ⟨hn, l₃⟩ := l₂.of_addColumn h₃ rfl fun x => .null
    obtain ⟨hname, l₄⟩ := l₃.of_addColumn h₄ rfl fun x => .path x.path
    cases h
    refine ⟨?_, rfl, ?_⟩
    · rw [FlowAliases.names, hb]
      exact .concat hname (.concat hn (.concat hsink (List.nodup_singleton _)))
    · rw [FlowAliases.cells, hb]
      exact l₄

/-- A result has one list of findings only. -/
theorem Lists.unique {ys : List Finding} (h : r.Lists al xs) (h' : r.Lists al ys) : ys = xs := by
  have hrows := h'.table.rows.symm.trans h.table.rows
  exact List.map_injective_iff.2 (fun _ _ => FlowAliases.eq_of_map_cells) (Except.ok.inj hrows)

theorem Lists.wpE_emit (h : r.Lists al xs) (x : Finding) :
    wpE (r.emit x) (fun r' w' => w' = w ∧ r'.Lists al (xs ++ [x])) Never w := by
  obtain ⟨t', hadd, hlists⟩ := h.table.addRow w.graph.bindings (lookup_rowOf h.names x)
  unfold emit
  rw [wpE_bind, wpE_lift, wp_bindings, h.aliases, wpE_bind, hadd, wpE_except]
  exact ⟨rfl, h.names, rfl, hlists⟩

end FlowResult

end CodeGraph
