import AccountSync.Cipher.Words
/-!
BLAKE3 in its key derivation mode: a key is drawn from secret material under a context text, so that
two contexts give unrelated keys. The input is cut into chunks of 1024 bytes that are the leaves of
a binary tree, whose left side is always a full tree.
-/

namespace AccountSync.Blake3

/-- The words that every compression begins with. -/
def opening : Words 4 := #v[0x6A09E667, 0xBB67AE85, 0x3C6EF372, 0xA54FF53A]

/-- The key of an unkeyed hash. -/
def start : Words 8 := opening ++ (#v[0x510E527F, 0x9B05688C, 0x1F83D9AB, 0x5BE0CD19] : Words 4)

/-- What a compression is for. -/
inductive Role where
  | chunkStart | chunkEnd | parent | root | context | material

def Role.bit : Role → UInt32
  | .chunkStart => 1
  | .chunkEnd => 2
  | .parent => 4
  | .root => 8
  | .context => 32
  | .material => 64

/-- Mixes a message word into a column or diagonal, with two of its turns. -/
def mix (near far word : UInt32) (v : Words 16) (q : Quarter) : Words 16 :=
  let v := v.put q.a (v.get q.a + v.get q.b + word)
  let v := v.put q.d (rotateRight (v.get q.d ^^^ v.get q.a) near)
  let v := v.put q.c (v.get q.c + v.get q.d)
  v.put q.b (rotateRight (v.get q.b ^^^ v.get q.c) far)

/-- One round: each column, then each diagonal, takes the next two message words. -/
def round (v m : Words 16) : Words 16 :=
  Quarter.all.zipIdx.foldl
    (fun v (q, i) => mix 8 7 (m.nth (2 * i + 1)) (mix 16 12 (m.nth (2 * i)) v q) q) v

/-- The order of the message words in the next round. -/
def order : List Nat := [2, 6, 3, 10, 7, 0, 4, 13, 1, 11, 12, 5, 9, 14, 15, 8]

def permute (m : Words 16) : Words 16 := Vector.ofFn fun i => m.nth (order.getD i.val 0)

/-- The rounds left to do, each with the message words in a new order. -/
def rounds : Nat → Words 16 → Words 16 → Words 16
  | 0, v, _ => v
  | n + 1, v, m => rounds n (round v m) (permute m)

/-- A node of the tree before its compression. -/
structure Node where
  chain : Words 8
  block : Words 16
  counter : Nat
  length : Nat
  roles : UInt32

/-- The eight words that a node hands up. -/
def Node.compress (n : Node) : Words 8 :=
  let v := rounds 7
    (n.chain ++ opening ++ (#v[UInt32.ofNat n.counter, UInt32.ofNat (n.counter / UInt32.size),
      UInt32.ofNat n.length, n.roles] : Words 4)) n.block
  Vector.ofFn fun i : Fin 8 => v.nth i.val ^^^ v.nth (i.val + 8)

/-- The last node of a chunk, its earlier blocks already chained in. -/
def chunkFrom (roles : UInt32) (index : Nat) (chain : Words 8) (opening : UInt32) (block : Bytes) :
    List Bytes → Node
  | [] => ⟨chain, .ofBytes 16 block, index, block.length, roles ||| opening ||| Role.chunkEnd.bit⟩
  | next :: rest =>
    let node : Node := ⟨chain, .ofBytes 16 block, index, block.length, roles ||| opening⟩
    chunkFrom roles index node.compress 0 next rest

/-- The node of one chunk. -/
def chunk (key : Words 8) (roles : UInt32) (index : Nat) (bs : Bytes) : Node :=
  match Bytes.pieces 64 bs with
  | [] => chunkFrom roles index key Role.chunkStart.bit [] []
  | block :: rest => chunkFrom roles index key Role.chunkStart.bit block rest

/-- The node over two subtrees. -/
def parent (key : Words 8) (roles : UInt32) (left right : Node) : Node :=
  ⟨key, left.compress ++ right.compress, 0, 64, roles ||| Role.parent.bit⟩

/-- The tree over the chunks from number `index` on; the left side takes the greatest power of two
that leaves something to the right. -/
def tree (key : Words 8) (roles : UInt32) (index : Nat) : List Bytes → Node
  | [] => chunk key roles index []
  | [c] => chunk key roles index c
  | c :: d :: rest =>
    let n := Nat.pow 2 (rest.length + 1).log2
    parent key roles (tree key roles index ((c :: d :: rest).take n))
      (tree key roles (index + n) ((c :: d :: rest).drop n))
termination_by chunks => chunks.length
decreasing_by
  · have := Nat.log2_self_le (n := rest.length + 1) (by omega)
    simp only [List.length_take, List.length_cons, Nat.pow_eq]
    omega
  · have := Nat.two_pow_pos (rest.length + 1).log2
    simp only [List.length_drop, List.length_cons, Nat.pow_eq]
    omega

/-- The 32-byte hash of a byte string under a key and a mode. -/
def hash (key : Words 8) (mode : Role) (bs : Bytes) : Words 8 :=
  let top := tree key mode.bit 0 (Bytes.pieces 1024 bs)
  { top with roles := top.roles ||| Role.root.bit }.compress

/-- The key that `material` gives under `context`. -/
def deriveKey (context material : Bytes) : Bytes :=
  (hash (hash start .context context) .material material).toBytes

end AccountSync.Blake3
