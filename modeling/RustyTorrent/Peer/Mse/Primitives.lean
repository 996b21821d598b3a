import RustyTorrent.Metainfo.Torrent
import RustyTorrent.Support.ByteStream
import RustyTorrent.Support.Keystream

/-!
# The primitives of message stream encryption

`peer/mse/rc4.rs` and `peer/mse/dh.rs`: the RC4 keystream and the key exchange
in the 768-bit group.  Modular exponentiation is the function `num-bigint`
computes.
-/

namespace RustyTorrent.Peer.Mse

/-! ## RC4 -/

structure Rc4 where
  s : Vector UInt8 256
  i : UInt8
  j : UInt8
  deriving DecidableEq, Repr

namespace Rc4

/-- `s.swap(a, b)`. -/
def swap (s : Vector UInt8 256) (a b : UInt8) : Vector UInt8 256 :=
  s.swap a.toNat b.toNat a.toNat_lt b.toNat_lt

/-- `s[a]`. -/
def at_ (s : Vector UInt8 256) (a : UInt8) : UInt8 := s.get ⟨a.toNat, a.toNat_lt⟩

/-- One round of the key schedule. -/
def schedule (key : Bytes) (st : Vector UInt8 256 × UInt8) (i : ℕ) :
    Vector UInt8 256 × UInt8 :=
  let j := st.2 + at_ st.1 (UInt8.ofNat i) + key.getD (i % key.length) 0
  (swap st.1 (UInt8.ofNat i) j, j)

/-- `Rc4::new`.  Its assertion that the key is not empty holds of the digests
it is called with. -/
def new (key : Bytes) : Rc4 :=
  let start : Vector UInt8 256 := Vector.ofFn fun i => UInt8.ofNat i.val
  ⟨((List.range 256).foldl (schedule key) (start, 0)).1, 0, 0⟩

/-- One byte of the keystream. -/
def next (c : Rc4) : Rc4 × UInt8 :=
  let i := c.i + 1
  let j := c.j + at_ c.s i
  let s := swap c.s i j
  (⟨s, i, j⟩, at_ s (at_ s i + at_ s j))

/-- `process`: the cipher afterwards, and the bytes in place of the data. -/
def process (c : Rc4) (data : Bytes) : Rc4 × Bytes :=
  Keystream.apply next c data

def skip (c : Rc4) (n : ℕ) : Rc4 := (c.process (List.replicate n 0)).1

end Rc4

/-! ## Key exchange -/

/-- `p()`: the prime of the group. -/
def p : ℕ :=
  0xFFFFFFFFFFFFFFFFC90FDAA22168C234C4C6628B80DC1CD129024E088A67CC74020BBEA63B139B22514A08798E3404DDEF9519B3CD3A431B302B0A6DF25F14374FE1356D6D51C245E485B576625E7EC6F44C42E9A63A36210000000000090563

def g : ℕ := 2

def keyLen : ℕ := 96

def modpow (base exponent modulus : ℕ) : ℕ := base ^ exponent % modulus

/-- `Keypair`: a private exponent and its public value. -/
structure Keypair where
  private_ : ℕ
  public_ : ℕ
  public_eq : public_ = modpow g private_ p

namespace Keypair

/-- The pair of a private exponent. -/
def ofPrivate (x : ℕ) : Keypair := ⟨x, modpow g x p, rfl⟩

/-- `Keypair::generate`, from its 20 random bytes.  The highest bit is set. -/
def generate (entropy : Vector UInt8 20) : Keypair :=
  ofPrivate (ofBytesBe (entropy.set 0 (entropy[0] ||| 0x80)).toList)

def sharedSecret (kp : Keypair) (peerPublic : ℕ) : ℕ :=
  modpow peerPublic kp.private_ p

end Keypair

def validatePeerPublic (y : ℕ) : Except String Unit :=
  if y ≤ 1 then .error "peer public key <= 1"
  else if p - 1 ≤ y then .error "peer public key >= p-1"
  else .ok ()

theorem p_lt : p < 256 ^ keyLen := by decide +kernel

theorem modpow_lt (b e : ℕ) : modpow b e p < p :=
  Nat.mod_lt _ (by decide +kernel)

theorem validatePeerPublic_eq_ok {y : ℕ} :
    validatePeerPublic y = .ok () ↔ 1 < y ∧ y < p - 1 := by
  unfold validatePeerPublic
  split_ifs with h1 h2
  all_goals
    simp
    omega

theorem sharedSecret_comm (a b : Keypair) :
    a.sharedSecret b.public_ = b.sharedSecret a.public_ := by
  unfold Keypair.sharedSecret
  rw [a.public_eq, b.public_eq]
  unfold modpow
  rw [← Nat.pow_mod, ← Nat.pow_mod, ← pow_mul, ← pow_mul, Nat.mul_comm]

end RustyTorrent.Peer.Mse
