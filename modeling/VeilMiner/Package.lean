import VeilMiner.Overlay

/- The package addPackageTxs commits for a candidate (miner.cpp, lines 666-694): the candidate's ancestors
   that are not yet in the block (CalculateMemPoolAncestors, then onlyUnconfirmed), the
   candidate itself, in SortForBlock's order. A block built from such packages lists every
   ancestor of a transaction before it. -/

set_option autoImplicit false

namespace Veil.Miner

variable {pool : TxMemPool}

theorem mem_packageOf {inBlock : List Nat} {iter x : TxMemPoolEntry} :
    x ∈ packageOf pool inBlock iter ↔
      x = iter ∨ (x ∈ pool.mapTx ∧ x.hash ∈ iter.ancestors ∧ x.hash ∉ inBlock) := by
  simp [packageOf, onlyUnconfirmed, mem_calculateMemPoolAncestors, or_comm, and_assoc]

theorem packageOf_present {inBlock : List Nat} {iter : TxMemPoolEntry} (present : iter ∈ pool.mapTx) :
    ∀ x ∈ packageOf pool inBlock iter, x ∈ pool.mapTx := fun x member => by
  rcases mem_packageOf.1 member with rfl | ⟨inPool, -⟩
  · exact present
  · exact inPool

theorem packageOf_fresh {inBlock : List Nat} {iter : TxMemPoolEntry} (fresh : iter.hash ∉ inBlock) :
    ∀ x ∈ packageOf pool inBlock iter, x.hash ∉ inBlock := fun x member => by
  rcases mem_packageOf.1 member with rfl | ⟨-, -, outside⟩
  · exact fresh
  · exact outside

theorem packageOf_hashes_nodup {inBlock : List Nat} {iter : TxMemPoolEntry}
    (present : iter ∈ pool.mapTx) : ((packageOf pool inBlock iter).map TxMemPoolEntry.hash).Nodup := by
  have older : ((onlyUnconfirmed inBlock (calculateMemPoolAncestors pool iter)).map
      TxMemPoolEntry.hash).Nodup :=
    (ancestorsIn_hashes_nodup pool iter).sublist ((List.filter_sublist _).map _)
  rw [packageOf, List.map_append, List.nodup_append]
  refine ⟨older, List.nodup_singleton _, ?_⟩
  simp only [List.map_cons, List.map_nil, List.disjoint_singleton]
  intro member
  obtain ⟨x, xMember, same⟩ := List.mem_map.1 member
  have ancestor := (mem_calculateMemPoolAncestors.1 (List.mem_of_mem_filter xMember)).2
  exact pool.ancestors_irrefl iter present (same ▸ ancestor)

theorem ancestor_mem_packageOf {inBlock : List Nat} {iter x a : TxMemPoolEntry}
    (present : iter ∈ pool.mapTx) (member : x ∈ packageOf pool inBlock iter)
    (aPresent : a ∈ pool.mapTx) (ancestor : a.hash ∈ x.ancestors) (outside : a.hash ∉ inBlock) :
    a ∈ packageOf pool inBlock iter := by
  refine mem_packageOf.2 (.inr ⟨aPresent, ?_, outside⟩)
  rcases mem_packageOf.1 member with rfl | ⟨xPresent, xAncestor, -⟩
  · exact ancestor
  · exact pool.ancestors_trans iter present x xPresent xAncestor a.hash ancestor

theorem count_lt_of_ancestor {x a : TxMemPoolEntry} (xPresent : x ∈ pool.mapTx)
    (aPresent : a ∈ pool.mapTx) (ancestor : a.hash ∈ x.ancestors) :
    a.nCountWithAncestors < x.nCountWithAncestors := by
  have nodup : (a.hash :: a.ancestors).Nodup :=
    List.nodup_cons.2 ⟨pool.ancestors_irrefl a aPresent, pool.ancestors_nodup a aPresent⟩
  have inside : a.hash :: a.ancestors ⊆ x.ancestors := fun h member => by
    rcases List.mem_cons.1 member with rfl | older
    · exact ancestor
    · exact pool.ancestors_trans x xPresent a aPresent ancestor h older
  have shorter := (nodup.subperm inside).length_le
  rw [pool.count_exact a aPresent, pool.count_exact x xPresent]
  simp only [List.length_cons] at shorter
  omega

theorem sortForBlock_sorted (package : List TxMemPoolEntry) :
    (sortForBlock package).Sorted fun a b => a.nCountWithAncestors ≤ b.nCountWithAncestors := by
  have : IsTotal TxMemPoolEntry fun a b => a.nCountWithAncestors < b.nCountWithAncestors ∨
      (a.nCountWithAncestors = b.nCountWithAncestors ∧ uint256Key a.hash ≤ uint256Key b.hash) :=
    ⟨fun _ _ => by omega⟩
  have : IsTrans TxMemPoolEntry fun a b => a.nCountWithAncestors < b.nCountWithAncestors ∨
      (a.nCountWithAncestors = b.nCountWithAncestors ∧ uint256Key a.hash ≤ uint256Key b.hash) :=
    ⟨fun _ _ _ => by omega⟩
  exact (List.sorted_insertionSort _ _).imp fun order => by omega

theorem mem_sortForBlock {package : List TxMemPoolEntry} {x : TxMemPoolEntry} :
    x ∈ sortForBlock package ↔ x ∈ package :=
  List.mem_insertionSort _

theorem sortForBlock_perm (package : List TxMemPoolEntry) :
    List.Perm (sortForBlock package) package :=
  List.perm_insertionSort _ _

theorem mem_prefix_of_count_lt {sorted before after : List TxMemPoolEntry} {x a : TxMemPoolEntry}
    (isSorted : sorted.Sorted fun a b => a.nCountWithAncestors ≤ b.nCountWithAncestors)
    (split : sorted = before ++ x :: after) (member : a ∈ sorted)
    (smaller : a.nCountWithAncestors < x.nCountWithAncestors) : a ∈ before := by
  subst split
  rcases List.mem_append.1 member with early | late
  · exact early
  · have tail := (List.pairwise_cons.1 (List.pairwise_append.1 isSorted).2.1).1
    rcases List.mem_cons.1 late with rfl | later
    · exact absurd smaller (lt_irrefl _)
    · exact absurd (tail a later) (not_le.2 smaller)

def Linearized (pool : TxMemPool) (entries : List TxMemPoolEntry) : Prop :=
  ∀ before x after, entries = before ++ x :: after → ∀ a ∈ ancestorsIn pool.mapTx x, a ∈ before

theorem linearized_append {entries added : List TxMemPoolEntry} (lin : Linearized pool entries)
    (tail : ∀ before x after, added = before ++ x :: after →
      ∀ a ∈ ancestorsIn pool.mapTx x, a ∈ entries ++ before) :
    Linearized pool (entries ++ added) := by
  intro before x after split a ancestor
  rcases List.append_eq_append_iff.1 split with ⟨middle, rfl, rest⟩ | ⟨middle, early, rest⟩
  · exact tail middle x after rest a ancestor
  · cases middle with
    | nil =>
        simp only [List.append_nil] at early
        subst early
        simpa using tail [] x after (by simpa using rest.symm) a ancestor
    | cons y middle =>
        obtain ⟨rfl, rfl⟩ := List.cons_eq_cons.1 rest
        exact lin before x middle early a ancestor

theorem linearized_commit {entries : List TxMemPoolEntry} {iter : TxMemPoolEntry}
    (lin : Linearized pool entries) (present : ∀ e ∈ entries, e ∈ pool.mapTx)
    (iterPresent : iter ∈ pool.mapTx) :
    Linearized pool
      (entries ++ sortForBlock (packageOf pool (entries.map TxMemPoolEntry.hash) iter)) := by
  refine linearized_append lin fun before x after split a ancestor => ?_
  have xMember : x ∈ packageOf pool (entries.map TxMemPoolEntry.hash) iter :=
    mem_sortForBlock.1 (split ▸ List.mem_append_right _ (List.mem_cons_self x after))
  have xPresent := packageOf_present iterPresent x xMember
  simp only [ancestorsIn, List.mem_filter, decide_eq_true_eq] at ancestor
  by_cases included : a.hash ∈ entries.map TxMemPoolEntry.hash
  · obtain ⟨e, eMember, same⟩ := List.mem_map.1 included
    exact List.mem_append_left _
      (pool.eq_of_hash_eq (present e eMember) ancestor.1 same ▸ eMember)
  · have aMember := ancestor_mem_packageOf iterPresent xMember ancestor.1 ancestor.2 included
    exact List.mem_append_right _ (mem_prefix_of_count_lt (sortForBlock_sorted _) split
      (mem_sortForBlock.2 aMember) (count_lt_of_ancestor xPresent ancestor.1 ancestor.2))

end Veil.Miner
