import Xsix.Library.CInt
import Xsix.Library.Memory

/-!
`chat_room_msg.hpp`: the messages of the chat room and their frames.

The length of a message is a `uint16_t`, its value a number below 2¹⁶; the host is
little-endian and the wire is not. The 1024 cells of `content` are the first of a memory
without an end, and a function that touches some of them also says which
(`Span`).
-/

namespace Xsix

open CInt Memory

/-! ### The length in memory and on the wire -/

/-- The value of a `uint16_t` with its two bytes exchanged. -/
def htons (v : ℕ) : ℕ := v % 256 * 256 + v / 256 % 256

/-- `ntohs` exchanges the bytes as well. -/
def ntohs (v : ℕ) : ℕ := htons v

/-- The bytes of a `uint16_t` in memory. -/
def bytesOf (v : ℕ) : List UInt8 := [UInt8.ofNat (v % 256), UInt8.ofNat (v / 256 % 256)]

/-- The value of the bytes of a `uint16_t`. -/
def ofBytes (bs : List UInt8) : ℕ := bs.foldr (fun b v => b.toNat + 256 * v) 0

@[simp] lemma length_bytesOf (v : ℕ) : (bytesOf v).length = 2 := rfl

lemma htons_lt (v : ℕ) : htons v < 2 ^ 16 := by
  unfold htons
  omega

lemma ntohs_htons {v : ℕ} (h : v < 2 ^ 16) : ntohs (htons v) = v := by
  have hlow : (v % 256 * 256 + v / 256 % 256) % 256 = v / 256 % 256 := by omega
  have hhigh : (v % 256 * 256 + v / 256 % 256) / 256 = v % 256 := by omega
  rw [ntohs, htons, htons, hlow, hhigh]
  omega

lemma ofBytes_bytesOf {v : ℕ} (h : v < 2 ^ 16) : ofBytes (bytesOf v) = v := by
  simp [ofBytes, bytesOf]
  omega

/-! ### Messages -/

/-- A range of the cells of `content`. -/
structure Span where
  off : ℤ
  len : ℤ

/-- The range is inside of the 1024 cells. A negative length, read as a size, is
enormous. -/
def Span.Inside (r : Span) : Prop := 0 ≤ r.off ∧ 0 ≤ r.len ∧ r.off + r.len ≤ 1024

/-- `chat_room_msg`: the length in its header, and `content`. -/
structure ChatRoomMsg where
  contentsize : ℕ
  content : ℤ → UInt8

namespace ChatRoomMsg

/-- `chat_room_msg::clear`. -/
def clear (msg : ChatRoomMsg) : ChatRoomMsg := { msg with contentsize := 0 }

/-- A message just constructed; `content` is what the memory held. -/
def built (content : ℤ → UInt8) : ChatRoomMsg := clear ⟨0, content⟩

/-- `chat_room_msg::set_content`. -/
def setContent (msg : ChatRoomMsg) (src : ℤ → UInt8) (size : ℤ) : ChatRoomMsg where
  contentsize := (size % 2 ^ 16).toNat
  content := copy msg.content 0 src 0 (uint64 size)

/-- The cells `set_content` writes. -/
def setContentSpan (size : ℤ) : Span := ⟨0, size⟩

/-- `chat_room_msg::get_buf`. -/
def getBuf (msg : ChatRoomMsg) : List UInt8 :=
  bytesOf (htons msg.contentsize) ++ read msg.content 0 msg.contentsize

/-- The cells `get_buf` reads. -/
def getBufSpan (msg : ChatRoomMsg) : Span := ⟨0, msg.contentsize⟩

/-- The first bytes of the header are read from the wire. -/
def storeHeader (msg : ChatRoomMsg) (bs : List UInt8) : ChatRoomMsg :=
  { msg with contentsize := ofBytes (bs ++ (bytesOf msg.contentsize).drop bs.length) }

/-- The first cells of `content` are read from the wire. -/
def storeContent (msg : ChatRoomMsg) (bs : List UInt8) : ChatRoomMsg :=
  { msg with content := write msg.content 0 bs }

end ChatRoomMsg

/-- The frame of a text: its length in network order, then the text. -/
def frame (text : List UInt8) : List UInt8 := bytesOf (htons text.length) ++ text

namespace ChatRoomMsg

variable {msg : ChatRoomMsg} {src : ℤ → UInt8} {size : ℤ} {bs : List UInt8}

/-- The header on the wire counts the bytes of the content that follow it. -/
lemma getBuf_eq_frame (msg : ChatRoomMsg) :
    msg.getBuf = frame (read msg.content 0 msg.contentsize) := by
  rw [getBuf, frame, length_read, Int.toNat_natCast]

/-- **What `set_content` and `get_buf` send of a text that fits** does not depend on what
the memory of the message held. -/
lemma getBuf_setContent (h0 : 0 ≤ size) (h1 : size < 2 ^ 16) :
    (msg.setContent src size).getBuf = frame (read src 0 size) := by
  have hsize : ((size % 2 ^ 16).toNat : ℤ) = size := by omega
  have hcopied : read (msg.setContent src size).content 0 size = read src 0 size := by
    simp only [setContent, uint64_eq_self h0 (show size < 2 ^ 64 by omega)]
    exact read_copy le_rfl le_rfl
  rw [getBuf_eq_frame, setContent, hsize]
  exact congrArg frame hcopied

/-- A header that was cleared and read whole. -/
lemma storeHeader_bytesOf {v : ℕ} (h : v < 2 ^ 16) :
    (msg.storeHeader (bytesOf v)).contentsize = v := by
  rw [storeHeader, length_bytesOf]
  simp only [bytesOf, List.drop_succ_cons, List.drop_nil, List.append_nil]
  exact ofBytes_bytesOf h

/-- A content that was read whole. -/
lemma read_storeContent : read (msg.storeContent bs).content 0 bs.length = bs := by
  exact read_write

end ChatRoomMsg

end Xsix
