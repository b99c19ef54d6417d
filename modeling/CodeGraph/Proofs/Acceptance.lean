import CodeGraph.Proofs.Faithful

/-!
# What a predicate accepts

`ValuePredicate.holds` is the meaning of a predicate: a test of a value as it is seen and of the
node that it belongs to. Asking a predicate gives its meaning whenever the value belongs to a vertex
whose node can be looked up, and changes nothing but the order in which entries were used. One that
asks for no node (`ValuePredicate.Blind`) answers without and changes nothing at all.
-/

namespace CodeGraph

/-- The meaning of a predicate for the values of a node. -/
def ValuePredicate.holds (n : GraphNode) : ValuePredicate → Seen → Bool
  | sees accepts, s => accepts s
  | node accepts, _ => accepts n
  | contains inner, s => s.preorder.any (inner.holds n)
  | and left right, s => left.holds n s && right.holds n s
  | or left right, s => left.holds n s || right.holds n s
  | not inner, s => !inner.holds n s

def Reading.satisfies (r : Reading) (p : ValuePredicate) : Bool := p.holds r.node r.value

namespace Context
variable {c c' : Context} {id : VertexId} {n : GraphNode}

theorem Alike.nodeAt? (h : c.Alike c') (id : VertexId) : c'.nodeAt? id = c.nodeAt? id := by
  unfold Context.nodeAt?
  rw [h.peek?, h.staged]

end Context

namespace ValuePredicate
variable {b : Bindings} {c : Context} {id : VertexId} {n : GraphNode} {v : Value}

def Blind : ValuePredicate → Prop
  | sees _ => True
  | node _ => False
  | contains inner | not inner => inner.Blind
  | and left right | or left right => left.Blind ∧ right.Blind

/-- Asking for the node of anything in the value finds this node and keeps the invariant. -/
def Finds (I : Context → Prop) (n : GraphNode) (v : Value) : Prop :=
  ∀ t ∈ v.preorder, ∀ c, I c →
    wp (Context.nodeOf? (.value t)) (fun found c' => found = some n ∧ I c') c

/-- A predicate that is asked answers by its meaning and keeps what asking for nodes keeps. If it asks
for none, no node need be found. -/
theorem wp_test_of_finds {I : Context → Prop} (hb : ∀ c, I c → c.bindings = b) (p : ValuePredicate)
    (hn : p.Blind ∨ Finds I n v) (hc : I c) :
    wp (p.test v) (fun yes c' => yes = p.holds n (b.view v) ∧ I c') c := by
  induction p generalizing v c with
  | sees accepts => exact ⟨by rw [← hb c hc]; rfl, hc⟩
  | node accepts =>
    unfold test
    rw [wp_bind]
    refine wp_mono (hn.resolve_left (fun hb => hb) v v.self_mem_preorder c hc) fun found c' h => ?_
    obtain ⟨rfl, hc'⟩ := h
    exact ⟨rfl, hc'⟩
  | contains inner ih =>
    have hany : (b.view v).preorder.any (inner.holds n) =
        v.preorder.any fun t => inner.holds n (b.view t) := by
      rw [Bindings.view_preorder, List.any_map]
      rfl
    unfold test holds
    rw [Tree.stream_eq_preorder, hany]
    refine wp_anyM (fun t ht c' hc' => ih ?_ hc') hc
    exact hn.imp_right fun hn u hu => hn u (Tree.preorder_subset ht hu)
  | and left right ihl ihr =>
    unfold test holds
    rw [wp_bind]
    refine wp_mono (ihl (hn.imp_left And.left) hc) fun yes c' h => ?_
    obtain ⟨rfl, hc'⟩ := h
    cases left.holds n (b.view v) with
    | false => exact ⟨rfl, hc'⟩
    | true => exact ihr (hn.imp_left And.right) hc'
  | or left right ihl ihr =>
    unfold test holds
    rw [wp_bind]
    refine wp_mono (ihl (hn.imp_left And.left) hc) fun yes c' h => ?_
    obtain ⟨rfl, hc'⟩ := h
    cases left.holds n (b.view v) with
    | true => exact ⟨rfl, hc'⟩
    | false => exact ihr (hn.imp_left And.right) hc'
  | not inner ih =>
    unfold test holds
    rw [wp_bind]
    refine wp_mono (ih hn hc) fun yes c' h => ?_
    obtain ⟨rfl, hc'⟩ := h
    exact ⟨rfl, hc'⟩

theorem wp_test (p : ValuePredicate) (hv : c.bindings.Owns id v) (hn : c.nodeAt? id = some n) :
    wp (p.test v) (fun yes c' => yes = p.holds n (c.bindings.view v) ∧ c.Alike c') c := by
  refine p.wp_test_of_finds (I := c.Alike) (fun c' ha => ha.bindings) (Or.inr fun t ht c' ha => ?_)
    (.refl c)
  refine wp_mono (Context.wp_nodeOf?_value (by rw [ha.bindings]; exact hv.below ht)
    ((ha.nodeAt? id).trans hn)) fun found c'' h => ⟨h.1, ha.trans h.2⟩

/-- A predicate that asks for no node answers by what is seen of the value, whatever its node may be,
and changes nothing. -/
theorem Blind.wp_test {p : ValuePredicate} (hp : p.Blind) (n : GraphNode) (v : Value) (c : Context) :
    wp (p.test v) (fun yes c' => yes = p.holds n (c.bindings.view v) ∧ c' = c) c :=
  p.wp_test_of_finds (I := (· = c)) (fun _ h => congrArg Context.bindings h) (Or.inl hp) rfl

end ValuePredicate

end CodeGraph
