import CodeGraph.Proofs.Rounds

/-!
# A flow of searches

A flow asks its algorithm once for each value of its source column. When the column lists readings
and the algorithm is a search, each reading gets what there is to find from it, one after the other,
and the flow's table shows the readings in order, each with its findings (`Search.wpE_apply`).
-/

namespace CodeGraph

theorem Flow.apply_of_columns (f : Flow) {t₁ t₂ : Table} {t₃ : Option Table}
    {source sink barrier : Column} (h₁ : t₁.onlyColumn = .ok source) (h₂ : t₂.onlyColumn = .ok sink)
    (h₃ : t₃.elim (.ok noBarrier) Table.onlyColumn = .ok barrier) :
    f.apply t₁ t₂ t₃ = (do
      let r ← FlowResult.new (← World.bindings) f.toFlowAliases
      let r ← (← source.cells).toList.foldlM (f.addFindings source sink barrier) r
      return r.table) := by
  unfold apply
  rw [h₁, h₂]
  cases t₃ with
  | none =>
    obtain rfl := Except.ok.inj h₃
    rfl
  | some t =>
    dsimp only
    rw [show t.onlyColumn = .ok barrier from h₃]
    rfl

namespace Search
variable {x : Search} {w : World} {result : FlowResult} {xs : List (Reading × Trail)}
  {rs : List Reading} {source : Column} {cells : List (Cell Ref)}

def toFlow (x : Search) : Flow := ⟨x.aliases, x.flow.algorithm x.app⟩

def pairs (groups : List (Reading × List Trail)) : List (Reading × Trail) :=
  groups.flatMap fun g => g.2.map (g.1, ·)

/-- Each source has its group of findings. -/
structure Groups (x : Search) (rs : List Reading) (groups : List (Reading × List Trail)) : Prop where
  starts : groups.map (·.1) = rs
  finds : ∀ g ∈ groups, x.terrain.Finds g.1 x.accepts g.2

theorem Groups.cons {r : Reading} {found : List Trail} {groups : List (Reading × List Trail)}
    (hf : x.terrain.Finds r x.accepts found) (h : x.Groups rs groups) :
    x.Groups (r :: rs) ((r, found) :: groups) :=
  ⟨by rw [List.map_cons, h.starts], List.forall_mem_cons.2 ⟨hf, h.finds⟩⟩

theorem wpE_foldlM (h : x.Ready w)
    (hc : cells.map (Cell.map w.graph.bindings.identity) = rs.map fun r => .value r.value)
    (hrs : ∀ r ∈ rs, r.Owned) (hr : result.Shows w.graph.bindings x.aliases xs) :
    wpE (cells.foldlM (x.toFlow.addFindings source x.sink x.barrier) result)
      (fun result' w' => x.Moves w w' ∧ ∃ groups, x.Groups rs groups ∧
        result'.Shows w'.graph.bindings x.aliases (xs ++ pairs groups)) Never w := by
  induction cells generalizing rs result xs w with
  | nil =>
    have hnil : rs = [] := List.map_eq_nil_iff.1 hc.symm
    subst hnil
    refine ⟨h.refl, [], ⟨rfl, by simp⟩, ?_⟩
    rw [pairs, List.flatMap_nil, List.append_nil]
    exact hr
  | cons cell cells ih =>
    cases rs with
    | nil => cases hc
    | cons r rs =>
      obtain ⟨hcell, hcells⟩ := List.cons_eq_cons.1 hc
      obtain ⟨v, rfl, hv⟩ := Cell.map_eq_value_iff.1 hcell
      obtain ⟨hr₀, hrs⟩ := List.forall_mem_cons.1 hrs
      rw [List.foldlM_cons, wpE_bind]
      refine wpE_of_never (wpE_algorithm ⟨h, hv, hr₀⟩ hr source) fun result₁ w₁ he => ?_
      obtain ⟨hm, found, hfound, hr₁⟩ := he
      have hcells₁ : cells.map (Cell.map w₁.graph.bindings.identity) =
          rs.map fun r => .value r.value := by
        rw [hm.grows.bindings.map_cells_eq, hcells]
        rw [hcells]
        intro s hs
        obtain ⟨r, hr, rfl⟩ := List.mem_map.1 hs
        exact (hrs r hr).bound
      refine wpE_of_never (ih hm.ready hcells₁ hrs hr₁) fun result₂ w₂ he => ?_
      obtain ⟨hm₂, groups, hgroups, hr₂⟩ := he
      refine ⟨hm.trans hm₂, (r, found) :: groups, hgroups.cons hfound, ?_⟩
      rw [pairs, List.flatMap_cons, ← List.append_assoc]
      exact hr₂

/-- The table of a flow that searches from a column that lists readings. -/
theorem wpE_apply (h : x.Ready w) {d : DataColumn} (hd : d.Lists w.graph.bindings rs)
    (hrs : ∀ r ∈ rs, r.Owned) {t₁ t₂ : Table} {t₃ : Option Table}
    (h₁ : t₁.onlyColumn = .ok (.data d)) (h₂ : t₂.onlyColumn = .ok x.sink)
    (h₃ : t₃.elim (.ok Flow.noBarrier) Table.onlyColumn = .ok x.barrier) :
    wpE (x.toFlow.apply t₁ t₂ t₃) (fun t w' => x.Moves w w' ∧ ∃ groups, x.Groups rs groups ∧
      t.Shows w'.graph.bindings x.aliases.fields (pairs groups)) Never w := by
  obtain ⟨r, hnew, hr⟩ := FlowResult.exists_new w.graph.bindings x.names
  rw [Flow.apply_of_columns _ h₁ h₂ h₃, wpE_bind, wpE_lift, wp_bindings, wpE_bind,
    show x.toFlow.toFlowAliases = x.aliases from rfl, hnew, wpE_except]
  show wpE (d.cells.toList.foldlM _ r >>= _) _ _ w
  rw [wpE_bind]
  refine wpE_of_never (wpE_foldlM h hd.cells hrs hr) fun result w' he => ?_
  obtain ⟨hm, groups, hgroups, hr'⟩ := he
  exact ⟨hm, groups, hgroups, hr'.table⟩

end Search

end CodeGraph
