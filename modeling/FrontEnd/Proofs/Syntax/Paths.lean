import FrontEnd.Proofs.Syntax.NodeCount

/-! Ways down from some handles to the nodes below them. In a forest there is one to each node. -/

namespace FrontEnd

namespace Tree

variable {t : Tree} {bs : List Branch} {ids : List NodeId} {id : NodeId} {ks ks' : List Nat}

/-- A way to a node: the number of the handle where it starts, and that of a child at each node. -/
inductive Path (t : Tree) : List NodeId → List Nat → NodeId → Prop
  | start {ids k id} : ids[k]? = some id → Path t ids [k] id
  | child {ids k root node ks id} : ids[k]? = some root → t.node? root = some node →
    Path t (t.children node) ks id → Path t ids (k :: ks) id

/-- Every node below these handles is live, and there is only one way to it. -/
structure Forest (t : Tree) (ids : List NodeId) : Prop where
  live : ∀ ks id, t.Path ids ks id → ∃ node, t.node? id = some node
  unique : ∀ ks ks' id, t.Path ids ks id → t.Path ids ks' id → ks = ks'

/-- The branches at the places of handles are below them. -/
theorem getElem?_map_root {k : Nat} (h : (bs.map Branch.root)[k]? = some id) :
    ∃ b, bs[k]? = some b ∧ b.root = id := by
  rw [List.getElem?_map] at h
  exact Option.map_eq_some_iff.1 h

/-- The parts of a branch in a forest are a forest without its root. -/
theorem Holds.parts {b : Branch} (h : t.Holds bs) (hb : b ∈ bs) :
    t.Holds b.parts ∧ b.root ∉ Branch.roots b.parts := by
  obtain ⟨xs, ys, rfl⟩ := List.append_of_mem hb
  obtain ⟨root, node, parts⟩ := b
  obtain ⟨hparts, hroot⟩ := (h.perm List.perm_middle).opened
  rw [roots_append] at hroot
  exact ⟨hparts.left, fun hmem => hroot (List.mem_append_left _ hmem)⟩

/-- A way starts at a branch, and ends there or goes on to one of its parts. -/
theorem Holds.path_cases (h : t.Holds bs) (hp : t.Path (bs.map Branch.root) ks id) :
    ∃ k b rest, ks = k :: rest ∧ bs[k]? = some b ∧
      (rest = [] ∧ b.root = id ∨ t.Path (b.parts.map Branch.root) rest id) := by
  cases hp with
  | start hk =>
    obtain ⟨b, hb, hroot⟩ := getElem?_map_root hk
    exact ⟨_, b, [], rfl, hb, .inl ⟨rfl, hroot⟩⟩
  | child hk hn hrest =>
    obtain ⟨b, hb, rfl⟩ := getElem?_map_root hk
    have hstores := h.stores b (Branch.mem_allIn.2 ⟨b, List.mem_of_getElem? hb, b.mem_all_self⟩)
    obtain rfl := Option.some.inj (hn.symm.trans hstores.node)
    exact ⟨_, b, _, rfl, hb, .inr (hstores.children ▸ hrest)⟩

theorem mem_roots_self {b : Branch} (hb : b.root = id ∨ id ∈ Branch.roots b.parts) :
    id ∈ Branch.roots [b] := by
  obtain ⟨root, node, parts⟩ := b
  rw [roots_mk]
  rcases hb with rfl | hb
  · exact List.mem_cons_self
  · exact List.mem_cons_of_mem _ hb

theorem mem_roots_of_getElem? {b : Branch} {k : Nat} (hk : bs[k]? = some b)
    (hid : id ∈ Branch.roots [b]) : id ∈ Branch.roots bs := by
  have hsub := Branch.allIn_sublist (List.singleton_sublist.2 (List.mem_of_getElem? hk))
  exact (hsub.map Branch.root).subset hid

/-- What is below one branch of a forest is not below another one. -/
theorem eq_of_mem_roots {b c : Branch} {k m : Nat} (hn : (Branch.roots bs).Nodup)
    (hb : bs[k]? = some b) (hc : bs[m]? = some c) (hidb : id ∈ Branch.roots [b])
    (hidc : id ∈ Branch.roots [c]) : k = m := by
  induction bs generalizing k m with
  | nil => simp at hb
  | cons x bs ih =>
    rw [roots_cons] at hn
    obtain ⟨-, hrest, hdisjoint⟩ := List.nodup_append.1 hn
    cases k with
    | zero =>
      cases m with
      | zero => rfl
      | succ m =>
        obtain rfl := Option.some.inj hb
        exact absurd rfl (hdisjoint id hidb id (mem_roots_of_getElem? hc hidc))
    | succ k =>
      cases m with
      | zero =>
        obtain rfl := Option.some.inj hc
        exact absurd rfl (hdisjoint id hidc id (mem_roots_of_getElem? hb hidb))
      | succ m => rw [ih hrest hb hc]

/-- A way leads to a node of the forest. -/
theorem Holds.mem_roots_of_path (h : t.Holds bs) (hp : t.Path (bs.map Branch.root) ks id) :
    id ∈ Branch.roots bs := by
  induction ks generalizing bs with
  | nil =>
    obtain ⟨k, b, rest, he, -⟩ := h.path_cases hp
    cases he
  | cons k ks ih =>
    obtain ⟨k, b, rest, he, hb, hrest⟩ := h.path_cases hp
    cases he
    refine mem_roots_of_getElem? hb (mem_roots_self ?_)
    exact hrest.imp And.right (ih (h.parts (List.mem_of_getElem? hb)).1)

/-- Every node of a forest can be reached. -/
theorem Holds.exists_path (h : t.Holds bs) (hid : id ∈ Branch.roots bs) :
    ∃ ks, t.Path (bs.map Branch.root) ks id := by
  obtain ⟨c, hc, rfl⟩ := List.mem_map.1 hid
  obtain ⟨b, hb, hc⟩ := Branch.mem_allIn.1 hc
  clear hid
  induction b using Branch.induct generalizing bs with
  | mk root node parts ih =>
    obtain ⟨k, hk⟩ := List.mem_iff_getElem?.1 hb
    have hroot : (bs.map Branch.root)[k]? = some root := by
      rw [List.getElem?_map, hk]
      rfl
    rw [Branch.all_mk] at hc
    rcases List.mem_cons.1 hc with rfl | hc
    · exact ⟨[k], .start hroot⟩
    · obtain ⟨d, hd, hcd⟩ := Branch.mem_allIn.1 hc
      have hstores := h.stores _ (Branch.mem_allIn.2 ⟨_, hb, Branch.mem_all_self _⟩)
      obtain ⟨ks, hks⟩ := ih d hd (h.parts hb).1 hc hd hcd
      exact ⟨k :: ks, .child hroot hstores.node (hstores.children ▸ hks)⟩

theorem Holds.unique_path (h : t.Holds bs) (hp : t.Path (bs.map Branch.root) ks id)
    (hp' : t.Path (bs.map Branch.root) ks' id) : ks = ks' := by
  induction ks generalizing bs ks' with
  | nil =>
    obtain ⟨k, b, rest, he, -⟩ := h.path_cases hp
    cases he
  | cons k ks ih =>
    obtain ⟨k, b, rest, he, hb, hrest⟩ := h.path_cases hp
    obtain ⟨k', b', rest', rfl, hb', hrest'⟩ := h.path_cases hp'
    cases he
    have hsub {b : Branch} {k : Nat} (hb : bs[k]? = some b) := h.parts (List.mem_of_getElem? hb)
    have hmem {b : Branch} {k : Nat} {rest : List Nat} (hb : bs[k]? = some b)
        (hrest : rest = [] ∧ b.root = id ∨ t.Path (b.parts.map Branch.root) rest id) :
        id ∈ Branch.roots [b] :=
      mem_roots_self (hrest.imp And.right (hsub hb).1.mem_roots_of_path)
    obtain rfl := eq_of_mem_roots h.apart hb hb' (hmem hb hrest) (hmem hb' hrest')
    obtain rfl := Option.some.inj (hb.symm.trans hb')
    obtain ⟨hparts, hroot⟩ := hsub hb
    rcases hrest with ⟨rfl, rfl⟩ | hrest
    · rcases hrest' with ⟨rfl, -⟩ | hrest'
      · rfl
      · exact absurd (hparts.mem_roots_of_path hrest') hroot
    · rcases hrest' with ⟨-, rfl⟩ | hrest'
      · exact absurd (hparts.mem_roots_of_path hrest) hroot
      · rw [ih hparts hrest hrest']

/-- A forest of live nodes is one by its ways. -/
theorem Holds.forest (h : t.Holds bs) : t.Forest (bs.map Branch.root) where
  live ks id hp := by
    obtain ⟨c, hc, rfl⟩ := List.mem_map.1 (h.mem_roots_of_path hp)
    exact ⟨_, (h.stores c hc).node⟩
  unique _ _ _ := h.unique_path

end Tree

end FrontEnd
