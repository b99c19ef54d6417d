/-!
# Dictionaries

A `Dictionary` maps texts to entries and lists them by key, in the order of code points (which is
the order of the keys' UTF-8 bytes). Vertex properties, log targets, decoded objects and sets of
tables are all listed this way. The order is part of the type, so two dictionaries with the same
entries are equal.
-/

namespace CodeGraph

/-- Entries under text keys, in strictly increasing order of the keys. -/
structure Dictionary (α : Type u) where
  entries : List (String × α)
  sorted : entries.Pairwise (fun a b => a.1 < b.1)

namespace Dictionary

variable {α : Type u}

def place (k : String) (v : α) : List (String × α) → List (String × α)
  | [] => [(k, v)]
  | e :: es =>
    if k < e.1 then (k, v) :: e :: es
    else if k = e.1 then (k, v) :: es
    else e :: place k v es

theorem mem_place {k : String} {v : α} {e : String × α} {es : List (String × α)}
    (h : e ∈ place k v es) : e = (k, v) ∨ e ∈ es := by
  induction es with
  | nil => simpa [place] using h
  | cons d ds ih =>
    simp only [place] at h
    split at h
    · simpa using h
    · split at h
      · rcases List.mem_cons.mp h with h | h
        · exact Or.inl h
        · exact Or.inr (List.mem_cons_of_mem _ h)
      · rcases List.mem_cons.mp h with h | h
        · exact Or.inr (h ▸ List.mem_cons_self ..)
        · exact (ih h).imp_right (List.mem_cons_of_mem _)

theorem sorted_place (k : String) (v : α) {es : List (String × α)}
    (h : es.Pairwise (fun a b => a.1 < b.1)) :
    (place k v es).Pairwise (fun a b => a.1 < b.1) := by
  induction es with
  | nil => simp [place]
  | cons e es ih =>
    have ⟨he, hes⟩ := List.pairwise_cons.mp h
    simp only [place]
    split
    · rename_i hk
      refine List.pairwise_cons.mpr ⟨?_, h⟩
      intro d hd
      rcases List.mem_cons.mp hd with rfl | hd
      · exact hk
      · exact String.lt_trans hk (he d hd)
    · split
      · rename_i hk
        exact List.pairwise_cons.mpr ⟨fun d hd => by simpa [hk] using he d hd, hes⟩
      · rename_i hlt hne
        refine List.pairwise_cons.mpr ⟨?_, ih hes⟩
        intro d hd
        rcases mem_place hd with rfl | hd
        · exact Decidable.byContradiction fun hn => hne (String.le_antisymm hn hlt)
        · exact he d hd

def empty : Dictionary α := ⟨[], .nil⟩

instance : EmptyCollection (Dictionary α) := ⟨empty⟩
instance : Inhabited (Dictionary α) := ⟨empty⟩

def insert (d : Dictionary α) (k : String) (v : α) : Dictionary α :=
  ⟨place k v d.entries, sorted_place k v d.sorted⟩

/-- Files the entries of a list in order: of two with one key the later stays. -/
def ofList (es : List (String × α)) : Dictionary α :=
  es.foldl (fun d e => d.insert e.1 e.2) empty

def get? (d : Dictionary α) (k : String) : Option α := d.entries.lookup k

def contains (d : Dictionary α) (k : String) : Bool := (d.get? k).isSome

def erase (d : Dictionary α) (k : String) : Dictionary α :=
  ⟨d.entries.filter (fun e => e.1 != k), d.sorted.filter _⟩

def keys (d : Dictionary α) : List String := d.entries.map Prod.fst

def values (d : Dictionary α) : List α := d.entries.map Prod.snd

def size (d : Dictionary α) : Nat := d.entries.length

def isEmpty (d : Dictionary α) : Bool := d.entries.isEmpty

end Dictionary

end CodeGraph
