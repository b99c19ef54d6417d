import Mathlib.Algebra.BigOperators.Group.List.Basic
import Mathlib.Data.Nat.ModEq
import Mathlib.Data.UInt
import Mathlib.Tactic.Abel
import CodeGraph.Proofs.Turns

/-!
# The balance of a count

What there was to be counted should be what is left of the count and what snapshots have taken of it. The
difference is the `balance` of the count, as numbers of 64 bits. `Adds` says what work adds to it, whatever
others do between its turns, so work that is put together from work adds the sum (`Adds.bind`), and all that
clients do adds the sum of what each of them does, in whatever order they take turns (`balance_interleave`).
-/

namespace CodeGraph

namespace Occurrence

def accepted? : Occurrence → Option (List Vertex)
  | page (.ok vs) => some vs
  | _ => none

def completed? : Occurrence → Option StageKind
  | ended kind true => some kind
  | _ => none

def cleared? : Occurrence → Option Profile
  | snapshot true seen => some seen
  | _ => none

end Occurrence

def StageKind.counter : StageKind → Counter
  | filter => .filter
  | flow => .flow
  | select => .select

namespace Counter

/-- What there is to be counted: the pages accepted, the vertices on them, or the stages that succeeded. -/
def number (k : Counter) (log : List Occurrence) : Nat :=
  match k with
  | fetch => (log.filterMap Occurrence.accepted?).length
  | classify => (log.filterMap Occurrence.accepted?).flatten.length
  | filter => (log.filterMap Occurrence.completed?).count .filter
  | flow => (log.filterMap Occurrence.completed?).count .flow
  | select => (log.filterMap Occurrence.completed?).count .select

/-- What snapshots that set the counts to zero have seen of a count, all together. -/
def taken (k : Counter) (log : List Occurrence) : Nat :=
  ((log.filterMap Occurrence.cleared?).map fun p => (k.of p).toNat).sum

variable {k : Counter}

theorem of_set (k' : Counter) (n : UInt64) (p : Profile) :
    k.of (k'.set n p) = if k' = k then n else k.of p := by
  cases k <;> cases k' <;> rfl

theorem of_add (k' : Counter) (n : UInt64) (p : Profile) :
    k.of (k'.set (k'.of p + n) p) = k.of p + if k' = k then n else 0 := by
  rw [of_set]
  split
  · next h => rw [h]
  · exact (add_zero _).symm

theorem number_nil : k.number [] = 0 := by cases k <;> rfl

theorem number_page_error (e : Error) : k.number [.page (.error e)] = 0 := by cases k <;> rfl

theorem number_page_ok (vs : List Vertex) : k.number [.page (.ok vs)] =
    (if fetch = k then 1 else 0) + if classify = k then vs.length else 0 := by
  cases k with
  | classify => simp [number, Occurrence.accepted?]
  | fetch | filter | flow | select => rfl

theorem number_ended (kind : StageKind) (succeeded : Bool) :
    k.number [.ended kind succeeded] = if succeeded ∧ kind.counter = k then 1 else 0 := by
  cases succeeded <;> cases kind <;> cases k <;> rfl

theorem taken_ended (kind : StageKind) (succeeded : Bool) : k.taken [.ended kind succeeded] = 0 := rfl

theorem number_snapshot (reset : Bool) (seen : Profile) : k.number [.snapshot reset seen] = 0 := by
  cases k <;> rfl

theorem taken_snapshot (reset : Bool) (seen : Profile) :
    k.taken [.snapshot reset seen] = if reset then (k.of seen).toNat else 0 := by
  cases reset <;> rfl

theorem number_append (log log' : List Occurrence) :
    k.number (log ++ log') = k.number log + k.number log' := by
  cases k <;> simp [number]

theorem taken_append (log log' : List Occurrence) : k.taken (log ++ log') = k.taken log + k.taken log' := by
  simp [taken]

/-- What of a count is still there or was taken by snapshots, less what there was to be counted. -/
def balance (k : Counter) (s : Scene) : UInt64 :=
  k.of s.world.profile + .ofNat (k.taken s.log) - .ofNat (k.number s.log)

def shift (k : Counter) (p p' : Profile) (happened : List Occurrence) : UInt64 :=
  k.of p' - k.of p + .ofNat (k.taken happened) - .ofNat (k.number happened)

theorem shift_nil (p p' : Profile) : k.shift p p' [] = k.of p' - k.of p := by
  unfold shift
  rw [number_nil]
  exact (sub_zero _).trans (add_zero _)

theorem balance_turn (w w' : World) (log happened : List Occurrence) :
    k.balance ⟨w', log ++ happened⟩ = k.balance ⟨w, log⟩ + k.shift w.profile w'.profile happened := by
  unfold balance shift
  dsimp only
  rw [number_append, taken_append, UInt64.ofNat_add, UInt64.ofNat_add]
  abel

theorem modEq_of_balance {s : Scene} {w : World} (h : k.balance s = k.balance ⟨w, []⟩) :
    k.taken s.log + (k.of s.world.profile).toNat ≡
      (k.of w.profile).toNat + k.number s.log [MOD 2 ^ 64] := by
  have hsum : UInt64.ofNat (k.taken s.log) + k.of s.world.profile =
      k.of w.profile + UInt64.ofNat (k.number s.log) := by
    unfold balance at h
    rw [number_nil] at h
    rw [add_comm, sub_eq_iff_eq_add.1 h]
    exact congrArg (· + _) ((sub_zero _).trans (add_zero _))
  have hmod := congrArg UInt64.toNat hsum
  rwa [UInt64.toNat_add, UInt64.toNat_add, UInt64.toNat_ofNat', UInt64.toNat_ofNat', Nat.mod_add_mod,
    Nat.add_mod_mod] at hmod

end Counter

variable {α β : Type} {k : Counter}

/-! ### Work -/

namespace Work

/-- Whatever goes on between its turns, the work adds to the balance what `d` says of its result. -/
def Adds (k : Counter) : Work α → (α → UInt64) → Prop
  | done a, d => d a = 0
  | turn m happens rest, d => ∀ w, (rest (m.run w).1).Adds k fun a =>
    d a - k.shift w.profile (m.run w).2.profile (happens (m.run w).1)

theorem Adds.bind {x : Work α} {f : α → Work β} {d : α → UInt64} {e : β → UInt64} (h : x.Adds k d)
    (hf : ∀ a, (f a).Adds k fun b => e b - d a) : (x >>= f).Adds k e := by
  induction x generalizing d e with
  | done a =>
    have ha := hf a
    simp only [show d a = 0 from h, sub_zero] at ha
    exact ha
  | turn m happens rest ih =>
    intro w
    refine ih _ (h w) fun a => ?_
    simp only [sub_sub_sub_cancel_right]
    exact hf a

theorem adds_act {happens : α → List Occurrence} {m : WorldM α} {d : α → UInt64}
    (h : ∀ w, d (m.run w).1 = k.shift w.profile (m.run w).2.profile (happens (m.run w).1)) :
    (act happens m).Adds k d := fun w => sub_eq_zero.2 (h w)

theorem Adds.congr {x : Work α} {d e : α → UInt64} (h : x.Adds k d) (he : ∀ a, d a = e a) : x.Adds k e :=
  funext he ▸ h

def Balanced (k : Counter) (x : Work α) : Prop := x.Adds k fun _ => 0

theorem balanced_done (a : α) : Balanced k (done a) := rfl

theorem Balanced.bind {x : Work α} {f : α → Work β} (h : x.Balanced k) (hf : ∀ a, (f a).Balanced k) :
    (x >>= f).Balanced k :=
  Adds.bind h fun a => (hf a).congr fun _ => (sub_zero 0).symm

/-! ### Clients -/

theorem Adds.balance_run {x : Work α} {d : α → UInt64} (h : x.Adds k d) (s : Scene) :
    k.balance (x.run s).2 = k.balance s + d (x.run s).1 := by
  induction x generalizing d s with
  | done a => exact (show d a = 0 from h) ▸ (add_zero _).symm
  | turn m happens rest ih =>
    refine (ih _ (h s.world) _).trans ?_
    rw [Counter.balance_turn s.world]
    exact add_add_sub_cancel ..

theorem sum_snd_set {due : List (Work Unit × UInt64)} {i : Nat} {x : Work Unit} {c : UInt64}
    (h : due[i]? = some (x, c)) (y : Work Unit) (d : UInt64) :
    ((due.set i (y, c - d)).map Prod.snd).sum = (due.map Prod.snd).sum - d := by
  obtain ⟨hi, hget⟩ := List.getElem?_eq_some_iff.1 h
  rw [List.map_set, List.sum_set', dif_pos (by rwa [List.length_map]), List.getElem_map, hget,
    neg_add_eq_sub, sub_sub_cancel_left, ← sub_eq_add_neg]

/-- Together, clients add to the balance what each of them is due to add, whoever takes which turn. -/
theorem balance_interleave {due : List (Work Unit × UInt64)} (h : ∀ p ∈ due, p.1.Adds k fun _ => p.2)
    (schedule : List Nat) (s : Scene) :
    k.balance (interleave (due.map Prod.fst) schedule s) = k.balance s + (due.map Prod.snd).sum := by
  induction schedule generalizing due s with
  | nil =>
    unfold interleave
    induction due generalizing s with
    | nil => exact (add_zero _).symm
    | cons p due ih =>
      obtain ⟨hp, hdue⟩ := List.forall_mem_cons.1 h
      rw [List.map_cons, List.foldl_cons, ih hdue, hp.balance_run, List.map_cons, List.sum_cons, add_assoc]
  | cons i schedule ih =>
    unfold interleave
    split
    · next m happens rest hx =>
      rw [List.getElem?_map, Option.map_eq_some_iff] at hx
      obtain ⟨⟨x, c⟩, hp, rfl⟩ := hx
      have hx := h _ (List.mem_of_getElem? hp) s.world
      generalize m.run s.world = r at hx ⊢
      obtain ⟨b, w⟩ := r
      -- what the turn has added is not due any more
      have hdue : ∀ p ∈ due.set i (rest b, c - k.shift s.world.profile w.profile (happens b)),
          p.1.Adds k fun _ => p.2 := by
        intro p hp
        obtain hp | rfl := List.mem_or_eq_of_mem_set hp
        · exact h p hp
        · exact hx
      have hrest := ih hdue ⟨w, s.log ++ happens b⟩
      rw [List.map_set, sum_snd_set hp, Counter.balance_turn s.world] at hrest
      exact hrest.trans (add_add_sub_cancel ..)
    · exact ih h s
    · exact ih h s

/-! ### Single turns -/

theorem adds_step {m : WorldM α} {d : α → UInt64}
    (h : ∀ w, k.of (m.run w).2.profile = k.of w.profile + d (m.run w).1) : (step m).Adds k d :=
  adds_act fun w => by rw [Counter.shift_nil, h w, add_sub_cancel_left]

theorem balanced_step {m : WorldM α} (h : World.LeavesCounts m) : (step m).Balanced k :=
  adds_step fun w => by rw [h w, add_zero]

theorem adds_count (k' : Counter) (n : UInt64) :
    (step (World.count fun p => k'.set (k'.of p + n) p)).Adds k fun _ => if k' = k then n else 0 :=
  adds_step fun w => Counter.of_add k' n w.profile

theorem adds_look (reset : Bool) (k' : Counter) :
    (look reset k').Adds k fun n => if reset = true ∧ k' = k then -n else 0 :=
  adds_step fun w => by
    cases reset with
    | false => exact (add_zero _).symm
    | true =>
      refine (Counter.of_set ..).trans ?_
      by_cases h : k' = k
      · rw [if_pos h, if_pos ⟨rfl, h⟩, h]
        exact (add_neg_cancel _).symm
      · rw [if_neg h, if_neg fun hk => h hk.2, add_zero]

theorem adds_tell (o : Occurrence) : (tell o).Adds k fun _ => .ofNat (k.taken [o]) - .ofNat (k.number [o]) :=
  adds_act fun w => by
    show _ = k.of w.profile - k.of w.profile + _ - _
    rw [sub_self, zero_add]

theorem adds_page (offset : Nat) (answer : Except Error (List Vertex)) :
    (page offset answer).Adds k fun _ => -.ofNat (k.number [.page answer]) :=
  adds_act fun w => by
    show _ = k.of w.profile - k.of w.profile + 0 - _
    rw [sub_self, zero_add, zero_sub]

theorem balanced_snapshot (reset : Bool) : (snapshot reset).Balanced k := by
  refine (adds_look reset _).bind fun fetch => (adds_look reset _).bind fun classify =>
    (adds_look reset _).bind fun filter => (adds_look reset _).bind fun flow =>
      (adds_look reset _).bind fun select => (adds_tell _).bind fun _ => ?_
  rw [Counter.taken_snapshot, Counter.number_snapshot]
  show _ = (0 : UInt64)
  cases reset with
  | false => simp
  | true => cases k <;> simp [Counter.of]

end Work

end CodeGraph
