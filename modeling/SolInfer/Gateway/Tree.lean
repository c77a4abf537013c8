import SolInfer.Lib.Dict
import SolInfer.Lib.Radix.Nodes
import SolInfer.Lib.Run
import SolInfer.Lib.Text

set_option autoImplicit false

/-! # The prefix tree of the gateway

`sgl-model-gateway/src/policies/tree.rs`: a radix tree over the characters of request texts whose nodes
record which tenants have sent the text that leads to them. A tree is the root and the forest below it
(`SolInfer.Lib.Radix`); a node reference of the source is the text that leads to the end of the node. -/

open Radix

namespace Gateway

/-! ## Texts -/

def takeChars (s : List Char) (n : Nat) : List Char :=
  if n = 0 then []
  else
    match Utf8.charIndex s n with
    | some idx => Utf8.sliceTo s idx
    | none => s

/-- `advance_by_chars`: characters are bytes as long as they are ASCII. -/
def advanceByChars (s : List Char) (n : Nat) : List Char :=
  let bytes := Utf8.bytes s
  if n = 0 then s
  else if bytes.length ≤ n then []
  else if Utf8.isAscii (bytes.take n) then Utf8.sliceFrom s n
  else
    match Utf8.charIndex s n with
    | some idx => Utf8.sliceFrom s idx
    | none => []

def sharedPrefixCountChars (a b : List Char) : Nat := ((a.zip b).takeWhile fun x => x.1 == x.2).length

def sharedPrefixCount (a b : List Char) : Nat :=
  let aBytes := Utf8.bytes a
  let bBytes := Utf8.bytes b
  let commonByteLen := ((aBytes.zip bBytes).findIdx? fun x => x.1 != x.2).getD (min aBytes.length bBytes.length)
  if Utf8.isAscii (aBytes.take commonByteLen) then commonByteLen else sharedPrefixCountChars a b

theorem common_bytes (a b : List Char)
    (h : Utf8.isAscii ((Utf8.bytes a).take (common (Utf8.bytes a) (Utf8.bytes b))) = true) :
    common (Utf8.bytes a) (Utf8.bytes b) = common a b := by
  induction a generalizing b with
  | nil => simp [Utf8.bytes]
  | cons c a ih =>
    cases b with
    | nil => simp [Utf8.bytes]
    | cons d b =>
      obtain ⟨x, xs, hc⟩ := Utf8.exists_encode c
      obtain ⟨y, ys, hd⟩ := Utf8.exists_encode d
      by_cases hxy : x = y
      · subst hxy
        rw [Utf8.bytes_cons, Utf8.bytes_cons, hc, hd, List.cons_append, List.cons_append, common_cons_self] at h ⊢
        simp only [List.take_succ_cons, Utf8.isAscii, List.all_cons, Bool.and_eq_true, decide_eq_true_eq] at h
        obtain ⟨rfl, hcx⟩ := Utf8.encode_eq_of_ascii hc h.1
        obtain ⟨rfl, hdx⟩ := Utf8.encode_eq_of_ascii hd h.1
        obtain rfl : c = d := Char.toNat_inj.1 (hcx.trans hdx.symm)
        rw [common_cons_self, List.nil_append, List.nil_append, ih b h.2]
      · have hne : c ≠ d := by
          rintro rfl
          exact hxy (List.cons.inj (hc.symm.trans hd)).1
        rw [Utf8.bytes_cons, Utf8.bytes_cons, hc, hd, List.cons_append, List.cons_append,
          common_cons_ne hxy, common_cons_ne hne]

@[simp]
theorem sharedPrefixCount_eq (a b : List Char) : sharedPrefixCount a b = common a b := by
  rw [sharedPrefixCount, findIdx?_zip]
  split
  next hascii => exact common_bytes a b hascii
  · exact length_takeWhile_zip a b

theorem length_le_bytes (s : List Char) : s.length ≤ (Utf8.bytes s).length := by
  induction s with
  | nil => exact le_rfl
  | cons c s ih =>
    have hpos := c.utf8Size_pos
    rw [Utf8.bytes_cons, List.length_append, String.length_utf8EncodeChar, List.length_cons]
    omega

@[simp]
theorem advanceByChars_eq (s : List Char) (n : Nat) : advanceByChars s n = s.drop n := by
  unfold advanceByChars
  dsimp only
  split
  next hzero => rw [hzero, List.drop_zero]
  split
  next hle => rw [List.drop_eq_nil_of_le ((length_le_bytes s).trans hle)]
  next hlt =>
    split
    next hascii =>
      -- as many bytes as characters
      have hn := Utf8.length_bytes_take (Nat.le_of_not_le hlt) hascii
      rw [← Utf8.sliceFrom_bytes, hn]
    · rw [Utf8.charIndex]
      split
      next hidx =>
        split at hidx
        · cases hidx
          exact Utf8.sliceFrom_bytes s n
        · cases hidx
      next hidx =>
        split at hidx
        · cases hidx
        next hend => rw [List.drop_eq_nil_of_le (Nat.le_of_not_lt hend)]

structure NodeText where
  text : List Char
  charCount : Nat
  count_eq : charCount = text.length
deriving DecidableEq, Repr

def NodeText.new (text : List Char) : NodeText := ⟨text, text.length, rfl⟩

def NodeText.empty : NodeText := ⟨[], 0, rfl⟩

/-- `split_at_char`, inside the text. -/
def NodeText.splitAtChar (t : NodeText) (n : Nat) : NodeText × NodeText :=
  if h : n < t.charCount then
    (⟨t.text.take n, n, by have := t.count_eq; simp; omega⟩,
     ⟨t.text.drop n, t.charCount - n, by have := t.count_eq; simp; omega⟩)
  else (t, .empty)

/-! ## Nodes -/

abbrev TenantId := String

structure Node where
  text : NodeText
  tenantLastAccessTime : Dict TenantId Nat
  lastTenant : Option TenantId

def Node.label (d : Node) : List Char := d.text.text

structure Tree where
  root : Node
  children : Forest Node
  tenantCharCount : Dict TenantId Nat
  epoch : Nat

def Tree.new (epoch : Nat) : Tree := ⟨⟨.empty, .empty, none⟩, .nil, .empty, epoch⟩

def Node.has (d : Node) (t : TenantId) : Bool := d.tenantLastAccessTime.contains t

def Tree.nodeAt (tree : Tree) (path : List Char) : Option (Node × Forest Node) :=
  if path = [] then some (tree.root, tree.children) else tree.children.nodeAt Node.label path

/-! ## Insertion -/

/-- `entry(t).and_modify(|count| *count += n).or_insert(n)`. -/
def addCount (counts : Dict TenantId Nat) (t : TenantId) (n : Nat) : Dict TenantId Nat :=
  counts.set t ((counts.get? t).getD 0 + n)

/-- `entry(t).or_insert(0)`. -/
def orInsert (d : Dict TenantId Nat) (t : TenantId) : Dict TenantId Nat :=
  if d.contains t then d else d.set t 0

/-- Let a tenant through a node: it is attached if it is not there, and gets the epoch at the last node. -/
def passTenant (t : TenantId) (s : Dict TenantId Nat × Nat) (d : Node) (rest : List Char) :
    (Dict TenantId Nat × Nat) × Node :=
  let (counts, d') :=
    if d.has t then (s.1, d)
    else (addCount s.1 t d.text.charCount,
      { d with tenantLastAccessTime := d.tenantLastAccessTime.set t 0 })
  if rest = [] then
    ((counts, s.2 + 1), { d' with tenantLastAccessTime := d'.tenantLastAccessTime.set t s.2 })
  else ((counts, s.2), d')

/-- What `insert` does on its way; it carries the character counts and the epoch. A split keeps the tenants
    on both nodes. -/
def insertion (t : TenantId) : Insertion (Dict TenantId Nat × Nat) Char Node where
  split s d n :=
    let (matchedText, contractedText) := d.text.splitAtChar n
    (s, { d with text := matchedText }, { d with text := contractedText })
  pass := passTenant t
  leaf s _ rest :=
    ((addCount s.1 t rest.length, s.2 + 1), ⟨.new rest, (Dict.empty : Dict TenantId Nat).set t s.2, some t⟩)

def Tree.insert (tree : Tree) (text : List Char) (tenant : TenantId) : Tree :=
  let root := { tree.root with
    tenantLastAccessTime := orInsert tree.root.tenantLastAccessTime tenant }
  let counts := orInsert tree.tenantCharCount tenant
  if text = [] then
    { tree with
      root := { root with tenantLastAccessTime := root.tenantLastAccessTime.set tenant tree.epoch }
      tenantCharCount := counts
      epoch := tree.epoch + 1 }
  else
    let ((counts, epoch), children) :=
      tree.children.insert Node.label (insertion tenant) (counts, tree.epoch) 0 text
    ⟨root, children, counts, epoch⟩

/-! ## Matching -/

section Choices

-- The order in which a concurrent map is iterated, as the number of the first key, and the order in which
-- the eviction heap gives its entries out, as the number of the next one.
variable (firstTenant : Dict TenantId Nat → Nat) (nextEntry : List (Nat × TenantId × List Char) → Nat)

variable (maxSize : Nat) (d : Node) (tree : Tree) (t : TenantId) (path : List Char)

/-- `iter().next()` on the tenants of a node. -/
def Node.anyTenant : Option TenantId :=
  let keys := d.tenantLastAccessTime.keys
  keys[firstTenant d.tenantLastAccessTime % keys.length]?

/-- The text to the end of the node at which a match stops; `[]` is the node where it started. -/
def reach : Forest Node → List Char → List Char
  | .nil, _ => []
  | .node d ch sib, w =>
    let n := sharedPrefixCount w d.label
    if n = 0 then reach sib w
    else if n = d.label.length then d.label ++ reach ch (advanceByChars w n)
    else d.label

theorem reach_node (d : Node) (ch sib : Forest Node) (w : List Char) :
    reach (.node d ch sib) w =
      if common d.label w = 0 then reach sib w
      else if common d.label w = d.label.length then d.label ++ reach ch (w.drop (common d.label w))
      else d.label := by
  simp only [reach, sharedPrefixCount_eq, advanceByChars_eq, common_comm w]

structure PrefixMatchResult where
  tenant : TenantId
  matchedCharCount : Nat
  inputCharCount : Nat
deriving DecidableEq, Repr

/-- The cached tenant if the node still has it, or else any tenant of the node. -/
def Node.owner : TenantId :=
  match d.lastTenant with
  | some t => if d.has t then t else (d.anyTenant firstTenant).getD "empty"
  | none => (d.anyTenant firstTenant).getD "empty"

/-- What a match leaves on the node: the tenant in the cache and, once in eight epochs, its time. -/
def Node.touched (epoch : Nat) : Node :=
  let tenant := d.owner firstTenant
  { d with
    lastTenant := some tenant
    tenantLastAccessTime :=
      if epoch % 8 = 0 then d.tenantLastAccessTime.set tenant epoch else d.tenantLastAccessTime }

def Tree.modify (f : Node → Node) : Tree :=
  if path = [] then { tree with root := f tree.root }
  else { tree with children := tree.children.alter Node.label (fun d _ => some (f d)) path }

def Tree.prefixMatchWithCounts (text : List Char) : PrefixMatchResult × Tree :=
  let path := reach tree.children text
  let curr := ((tree.nodeAt path).map Prod.fst).getD tree.root
  (⟨curr.owner firstTenant, tree.children.walk Node.label text, text.length⟩,
    { tree.modify path (fun d => d.touched firstTenant tree.epoch) with epoch := tree.epoch + 1 })

/-- The characters that match on nodes of a tenant, and the text to the end of the node reached. -/
def walkTenant (t : TenantId) : Forest Node → List Char → Nat × List Char
  | .nil, _ => (0, [])
  | .node d ch sib, w =>
    let n := sharedPrefixCount w d.label
    if n = 0 then walkTenant t sib w
    else if d.has t then
      if n = d.label.length then
        let (m, path) := walkTenant t ch (advanceByChars w n)
        (n + m, d.label ++ path)
      else (n, d.label)
    else (0, [])

theorem walkTenant_node (t : TenantId) (d : Node) (ch sib : Forest Node) (w : List Char) :
    walkTenant t (.node d ch sib) w =
      if common d.label w = 0 then walkTenant t sib w
      else if d.has t then
        if common d.label w = d.label.length then
          let (m, path) := walkTenant t ch (w.drop (common d.label w))
          (common d.label w + m, d.label ++ path)
        else (common d.label w, d.label)
      else (0, []) := by
  simp only [walkTenant, sharedPrefixCount_eq, advanceByChars_eq, common_comm w]

def Tree.prefixMatchTenant (text : List Char) (tenant : TenantId) : List Char × Tree :=
  let (matched, path) := walkTenant tenant tree.children text
  let found := ((tree.nodeAt path).map fun x => x.1.has tenant).getD false
  (takeChars text matched,
    if found then
      { tree.modify path (fun d =>
          { d with tenantLastAccessTime := d.tenantLastAccessTime.set tenant tree.epoch }) with
        epoch := tree.epoch + 1 }
    else tree)

/-! ## Removal -/

def noChildHas (ch : Forest Node) : Bool := ch.topData.all fun d => !d.has t

def leafOf (ch : Forest Node) : List TenantId :=
  d.tenantLastAccessTime.keys.filter fun t => noChildHas t ch

def Node.without : Node :=
  { d with tenantLastAccessTime := d.tenantLastAccessTime.erase t }

/-- Take a tenant from a node; a node without tenants and children goes. -/
def dropTenant (d : Node) (ch : Forest Node) : Option Node :=
  match ch with
  | .nil => if (d.without t).tenantLastAccessTime.keys = [] then none else some (d.without t)
  | .node .. => some (d.without t)

def Tree.dropTenantAt : Tree :=
  if path = [] then { tree with root := tree.root.without t }
  else { tree with children := tree.children.alter Node.label (dropTenant t) path }

/-- The text to the end of the parent of a node that is not the root. -/
def parentPath (d : Node) : List Char := path.take (path.length - d.label.length)

def Tree.newLeaf (d : Node) : Option (Nat × List Char) :=
  if path = [] then none
  else
    match tree.nodeAt (parentPath path d) with
    | some (p, ch) =>
      if p.has t && noChildHas t ch then
        some ((p.tenantLastAccessTime.get? t).getD 0, parentPath path d)
      else none
    | none => none

def Tree.nodes : List (List Char × Node × Forest Node) :=
  ([], tree.root, tree.children) :: tree.children.nodes Node.label []

/-- The loop of `remove_tenant`. -/
def removeLoop (t : TenantId) : Nat → Tree → List (List Char) → Tree
  | 0, tree, _ => tree
  | _, tree, [] => tree
  | fuel + 1, tree, path :: queue =>
    match tree.nodeAt path with
    | none => removeLoop t fuel tree queue
    | some (d, _) =>
      let tree := tree.dropTenantAt t path
      removeLoop t fuel tree (queue ++ (tree.newLeaf t path d).toList.map Prod.snd)

def Tree.holders : Nat :=
  (if tree.root.has t then 1 else 0) + tree.children.total fun d => if d.has t then 1 else 0

def Tree.removeTenant (tenant : TenantId) : Tree :=
  let queue := (tree.nodes.filter fun x => x.2.1.has tenant && noChildHas tenant x.2.2).map Prod.fst
  let tree := removeLoop tenant (2 * tree.holders tenant + queue.length) tree queue
  { tree with tenantCharCount := tree.tenantCharCount.erase tenant }

/-! ## Eviction -/

/-- What an eviction took away: a tenant, the text to the end of the node, the length of the node. -/
structure Dropped where
  tenant : TenantId
  path : List Char
  length : Nat
deriving DecidableEq, Repr

def popEntry (heap : List (Nat × TenantId × List Char)) :
    Option ((Nat × TenantId × List Char) × List (Nat × TenantId × List Char)) :=
  let i := nextEntry heap % heap.length
  heap[i]?.map fun e => (e, heap.eraseIdx i)

/-- One entry of the heap: the tenant goes from the node if it is over its size, has the node and is on no
    child. A tenant whose count is unknown is over its size. -/
def evictEntry : Option (Tree × List (Nat × TenantId × List Char) × Dropped) :=
  if (tree.tenantCharCount.get? t).any (· ≤ maxSize) then none
  else
    match tree.nodeAt path with
    | none => none
    | some (d, ch) =>
      if d.has t && noChildHas t ch then
        let tree := { tree.dropTenantAt t path with
          tenantCharCount := tree.tenantCharCount.modify t (· - d.text.charCount) }
        some (tree, (tree.newLeaf t path d).toList.map (fun x => (x.1, t, x.2)), ⟨t, path, d.label.length⟩)
      else none

/-- The loop of `evict_tenant_by_size`, with what it took away. -/
def evictLoop (maxSize : Nat) :
    Nat → Tree → List (Nat × TenantId × List Char) → List Dropped → Tree × List Dropped
  | 0, tree, _, out => (tree, out)
  | fuel + 1, tree, heap, out =>
    match popEntry nextEntry heap with
    | none => (tree, out)
    | some ((_, t, path), heap) =>
      match evictEntry maxSize tree t path with
      | none => evictLoop maxSize fuel tree heap out
      | some (tree, new, dropped) => evictLoop maxSize fuel tree (new ++ heap) (dropped :: out)

def Tree.attachments : Nat :=
  tree.root.tenantLastAccessTime.keys.length +
    tree.children.total fun d => d.tenantLastAccessTime.keys.length

def Tree.evictTenantBySize (maxSize : Nat) : Tree × List Dropped :=
  let heap := tree.nodes.flatMap fun x =>
    (leafOf x.2.1 x.2.2).map fun t => ((x.2.1.tenantLastAccessTime.get? t).getD 0, t, x.1)
  evictLoop nextEntry maxSize (2 * tree.attachments + heap.length) tree heap []

/-! ## Sizes -/

def Tree.getUsedSizePerTenant : Dict TenantId Nat :=
  tree.nodes.foldl (fun used x => x.2.1.tenantLastAccessTime.keys.foldl
    (fun used t => addCount used t x.2.1.text.charCount) used) .empty

/-! ## Runs -/

/-- What happened to the texts that tenants hold. -/
inductive Record where
  | inserted (tenant : TenantId) (text : List Char)
  | removed (tenant : TenantId)
  | dropped (tenant : TenantId) (path : List Char) (length : Nat)
deriving DecidableEq, Repr

/-- The pairs of a tenant and a prefix that are still held, after a history with the newest record first:
    an insertion stores every prefix of its text, a removal ends all of a tenant's pairs, and an eviction
    ends those on the edge of the node. -/
def Held : List Record → TenantId → List Char → Prop
  | [], _, _ => False
  | .inserted t text :: h, t', p => (t' = t ∧ p <+: text) ∨ Held h t' p
  | .removed t :: h, t', p => t' ≠ t ∧ Held h t' p
  | .dropped t path n :: h, t', p => ¬ (t' = t ∧ p <+: path ∧ path.length < p.length + n) ∧ Held h t' p

/-- A call on the tree, or calls elsewhere that advance the epoch. -/
inductive TreeEvent where
  | insert (text : List Char) (tenant : TenantId)
  | prefixMatchWithCounts (text : List Char)
  | prefixMatchTenant (text : List Char) (tenant : TenantId)
  | evictTenantBySize (maxSize : Nat)
  | removeTenant (tenant : TenantId)
  | elsewhere (epochs : Nat)

def treeStep (s : Tree × List Record) : TreeEvent → Option (Tree × List Record)
  | .insert text tenant => some (s.1.insert text tenant, .inserted tenant text :: s.2)
  | .prefixMatchWithCounts text => some ((s.1.prefixMatchWithCounts firstTenant text).2, s.2)
  | .prefixMatchTenant text tenant => some ((s.1.prefixMatchTenant text tenant).2, s.2)
  | .evictTenantBySize maxSize =>
    let (tree, out) := s.1.evictTenantBySize nextEntry maxSize
    some (tree, out.map (fun x => .dropped x.tenant x.path x.length) ++ s.2)
  | .removeTenant tenant => some (s.1.removeTenant tenant, .removed tenant :: s.2)
  | .elsewhere epochs => some ({ s.1 with epoch := s.1.epoch + epochs }, s.2)

end Choices

/-- A match that could note the placeholder as a tenant is not made: a tenant is on the root, or the epoch
    is one in which the match notes nothing. -/
def TreeAllowed (s : Tree × List Record) : TreeEvent → Prop
  | .prefixMatchWithCounts _ => s.1.root.tenantLastAccessTime.keys ≠ [] ∨ s.1.epoch % 8 ≠ 0
  | _ => True

end Gateway
