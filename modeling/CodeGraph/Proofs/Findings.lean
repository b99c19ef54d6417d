import CodeGraph.Proofs.Search
import CodeGraph.Proofs.TableSet
import CodeGraph.Proofs.TableView
import CodeGraph.Proofs.Wp

/-!
# What a flow records

The result of a flow shows its findings, each a start with a trail: the start, the end and the path
of the trail, with nothing for the barrier. A result for different aliases can be made, and a finding
that is seen as a start with a trail is added as such.
-/

namespace CodeGraph

namespace Trail

def Owned (t : Trail) : Prop := ∀ r ∈ t.last :: t.past, r.Owned

theorem Owned.path {t : Trail} (h : t.Owned) : ∀ r ∈ t.path, r.Owned :=
  fun r hr => h r (List.mem_reverse.1 hr)

theorem Owned.extend {t : Trail} {r : Reading} (h : t.Owned) (hr : r.Owned) : (t.extend r).Owned :=
  List.forall_mem_cons.2 ⟨hr, h⟩

end Trail

/-- The columns of a flow's result, as they are seen. -/
def FlowAliases.fields (a : FlowAliases) : List (String × (Reading × Trail → Cell Identity)) :=
  (a.source, fun x => .value x.1.value) :: (a.sink, fun x => .value x.2.last.value) ::
    ((a.barrier.map fun n => (n, fun _ => .null)).toList ++
      [(a.name, fun x => .path (x.2.path.map (·.value)))])

/-- The columns of a flow's result, as cells of its findings. -/
def FlowAliases.cells (a : FlowAliases) : List (String × (Finding → Cell Ref)) :=
  (a.source, fun x => .value x.source) :: (a.sink, fun x => .value x.sink) ::
    ((a.barrier.map fun n => (n, fun _ => .null)).toList ++ [(a.name, fun x => .path x.path)])

theorem FlowAliases.eq_of_map_cells {a : FlowAliases} {x y : Finding}
    (h : (a.cells.map fun f => (f.1, f.2 x)) = a.cells.map fun f => (f.1, f.2 y)) : x = y := by
  unfold cells at h
  simp only [List.map_cons, List.map_append, List.cons.injEq, Prod.mk.injEq, true_and, Cell.value.injEq] at h
  obtain ⟨hsource, hsink, h⟩ := h
  have hpath : x.path = y.path := by simpa using List.append_inj_right' h rfl
  cases x
  cases y
  cases hsource
  cases hsink
  cases hpath
  rfl

def FlowAliases.names (a : FlowAliases) : List String :=
  a.source :: a.sink :: (a.barrier.toList ++ [a.name])

theorem FlowAliases.map_fields (a : FlowAliases) : a.fields.map (·.1) = a.names := by
  unfold fields names
  cases a.barrier <;> rfl

/-- No two aliases of a flow are the same. -/
structure FlowAliases.Distinct (a : FlowAliases) : Prop where
  sink : a.sink ≠ a.source
  name_source : a.name ≠ a.source
  name_sink : a.name ≠ a.sink
  barrier : ∀ n, a.barrier = some n → n ≠ a.source ∧ n ≠ a.sink ∧ n ≠ a.name

theorem FlowAliases.distinct {a : FlowAliases} (h : a.names.Nodup) : a.Distinct := by
  unfold names at h
  rw [List.nodup_cons, List.nodup_cons, List.nodup_append] at h
  obtain ⟨hs, hk, -, -, hb⟩ := h
  simp only [List.mem_cons, List.mem_append, Option.mem_toList, List.not_mem_nil, or_false] at hs hk
  refine ⟨fun he => hs (Or.inl he.symm), fun he => hs (Or.inr (Or.inr he.symm)),
    fun he => hk (Or.inr he.symm), fun n hn => ?_⟩
  have hm : n ∈ a.barrier.toList := Option.mem_toList.2 hn
  exact ⟨fun he => hs (Or.inr (Or.inl (he ▸ hn))), fun he => hk (Or.inl (he ▸ hn)),
    hb n hm _ (List.mem_singleton.2 rfl)⟩

namespace FlowResult
variable {b b' : Bindings} {a : FlowAliases} {r : FlowResult} {xs : List (Reading × Trail)}
  {s : Reading} {t : Trail} {x : Finding}

/-- The findings recorded so far. -/
structure Shows (b : Bindings) (a : FlowAliases) (r : FlowResult) (xs : List (Reading × Trail)) :
    Prop where
  aliases : r.aliases = a
  table : r.table.Shows b a.fields xs
  owned : ∀ x ∈ xs, x.1.Owned ∧ x.2.Owned

theorem Shows.mono (h : Shows b a r xs) (he : b.Extends b') : Shows b' a r xs := by
  refine ⟨h.aliases, h.table.mono (fun f hf x hx => ?_) he, h.owned⟩
  obtain ⟨hs, ht⟩ := h.owned x hx
  unfold FlowAliases.fields at hf
  simp only [List.mem_cons, List.mem_append, Option.mem_toList, List.not_mem_nil, or_false,
    Option.map_eq_some_iff] at hf
  rcases hf with rfl | rfl | ⟨n, -, rfl⟩ | rfl
  · exact hs.bound
  · exact (ht _ (List.mem_cons_self ..)).bound
  · trivial
  · intro v hv
    obtain ⟨r, hr, rfl⟩ := List.mem_map.1 hv
    exact (ht.path r hr).bound

theorem exists_new (b : Bindings) (h : a.names.Nodup) :
    ∃ r, FlowResult.new b a = .ok r ∧ Shows b a r [] := by
  have hdata : ∀ (n : String) (g : Reading × Trail → Cell Identity),
      (Column.data (.new n true)).Shows b (([] : List (Reading × Trail)).map g) :=
    fun n g => ⟨#[], rfl, rfl⟩
  have hany : ∀ (n : String) (g : Reading × Trail → Cell Identity),
      (Column.any n #[]).Shows b (([] : List (Reading × Trail)).map g) := fun n g => ⟨#[], rfl, rfl⟩
  obtain ⟨t₁, h₁, -, hs₁⟩ := (Table.Shows.new b a.name []).addColumn List.not_mem_nil
    (hdata a.source fun x => .value x.1.value)
  have hd := FlowAliases.distinct h
  obtain ⟨t₂, h₂, -, hs₂⟩ := hs₁.addColumn (c := .data (.new a.sink true))
    (g := fun x => .value x.2.last.value)
    (fun hm => hd.sink (List.mem_singleton.1 hm)) (hdata ..)
  cases hb : a.barrier with
  | none =>
    have hnew : a.name ∉ [a.source, a.sink] := by simp [hd.name_source, hd.name_sink]
    obtain ⟨t₃, h₃, -, hs₃⟩ := hs₂.addColumn (c := .any a.name #[])
      (g := fun x => .path (x.2.path.map (·.value))) hnew (hany ..)
    refine ⟨⟨a, t₃⟩, ?_, rfl, ?_, fun x hx => absurd hx List.not_mem_nil⟩
    · simp only [FlowResult.new, hb, h₁, ok_bind, h₂, pure_bind, h₃]
      rfl
    · unfold FlowAliases.fields
      rw [hb]
      exact hs₃
  | some n =>
    obtain ⟨hns, hnk, hnm⟩ := hd.barrier n hb
    have hnew : n ∉ [a.source, a.sink] := by simp [hns, hnk]
    obtain ⟨t₃, h₃, -, hs₃⟩ := hs₂.addColumn (c := .any n #[]) (g := fun _ => .null) hnew (hany ..)
    have hnew' : a.name ∉ [a.source, a.sink, n] := by
      simp [hd.name_source, hd.name_sink, Ne.symm hnm]
    obtain ⟨t₄, h₄, -, hs₄⟩ := hs₃.addColumn (c := .any a.name #[])
      (g := fun x => .path (x.2.path.map (·.value))) hnew' (hany ..)
    refine ⟨⟨a, t₄⟩, ?_, rfl, ?_, fun x hx => absurd hx List.not_mem_nil⟩
    · simp only [FlowResult.new, hb, h₁, ok_bind, h₂, h₃, h₄]
      rfl
    · unfold FlowAliases.fields
      rw [hb]
      exact hs₄

/-- A finding as it is seen. -/
structure Sees (b : Bindings) (x : Finding) (s : Reading) (t : Trail) : Prop where
  source : b.view x.source = s.value
  sink : b.view x.sink = t.last.value
  path : x.path.map b.view = t.path.map (·.value)

theorem lookup_rowOf (hn : a.names.Nodup) (x : Finding) :
    ∀ f ∈ a.cells, ((rowOf a x).lookup f.1).getD .null = f.2 x := by
  obtain ⟨hks, hms, hmk, hbar⟩ := FlowAliases.distinct hn
  intro f hf
  unfold FlowAliases.cells at hf
  simp only [List.mem_cons, List.mem_append, Option.mem_toList, List.not_mem_nil, or_false,
    Option.map_eq_some_iff] at hf
  unfold rowOf
  rcases hf with rfl | rfl | ⟨n, hb, rfl⟩ | rfl
  · rw [Dictionary.lookup_cons_ite, if_pos rfl, Option.getD_some]
  · rw [Dictionary.lookup_cons_ite, if_neg hks, Dictionary.lookup_cons_ite, if_pos rfl, Option.getD_some]
  · obtain ⟨hns, hnk, hnm⟩ := hbar n hb
    rw [hb, Dictionary.lookup_cons_ite, if_neg hns, Dictionary.lookup_cons_ite, if_neg hnk,
      Dictionary.lookup_cons_ite, if_neg hnm]
    show (List.lookup n [(n, Cell.null)]).getD .null = _
    rw [Dictionary.lookup_cons_ite, if_pos rfl, Option.getD_some]
  · rw [Dictionary.lookup_cons_ite, if_neg hms, Dictionary.lookup_cons_ite, if_neg hmk,
      Dictionary.lookup_cons_ite, if_pos rfl, Option.getD_some]

theorem map_cell_lookup (hn : a.names.Nodup) (hx : Sees b x s t) :
    ∀ f ∈ a.fields, (((rowOf a x).lookup f.1).getD .null).map b.identity = f.2 (s, t) := by
  have hrow := lookup_rowOf hn x
  unfold FlowAliases.cells at hrow
  simp only [List.forall_mem_cons, List.forall_mem_append] at hrow
  obtain ⟨hsource, hsink, hbarrier, hname, -⟩ := hrow
  intro f hf
  unfold FlowAliases.fields at hf
  simp only [List.mem_cons, List.mem_append, Option.mem_toList, List.not_mem_nil, or_false,
    Option.map_eq_some_iff] at hf
  rcases hf with rfl | rfl | ⟨n, hb, rfl⟩ | rfl
  · rw [hsource]
    exact congrArg Cell.value hx.source
  · rw [hsink]
    exact congrArg Cell.value hx.sink
  · rw [hbarrier (n, fun _ => .null) (by rw [hb]; exact List.mem_singleton.2 rfl)]
    rfl
  · rw [hname]
    exact congrArg Cell.path ((Tree.mapAll_eq_map ..).trans hx.path)

theorem Shows.wpE_emit {w : World} (h : Shows w.graph.bindings a r xs) (hn : a.names.Nodup)
    (hx : Sees w.graph.bindings x s t) (hs : s.Owned) (ht : t.Owned) :
    wpE (r.emit x) (fun r' w' => w' = w ∧ Shows w.graph.bindings a r' (xs ++ [(s, t)])) Never w := by
  unfold emit
  rw [wpE_bind, wpE_lift, wp_bindings, h.aliases, wpE_bind]
  obtain ⟨t', hadd, -, hshows⟩ := h.table.addRow (map_cell_lookup hn hx)
  rw [hadd, wpE_except]
  refine ⟨rfl, rfl, hshows, fun y hy => ?_⟩
  rcases List.mem_append.1 hy with hy | hy
  · exact h.owned y hy
  · rw [List.mem_singleton.1 hy]
    exact ⟨hs, ht⟩

end FlowResult

end CodeGraph
