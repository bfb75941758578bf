import LiveIngest.Digest.Sha256

/-!
# HMAC-SHA256

A message is authenticated under a key by hashing it twice, each time behind a block made from the
key. Keys longer than a block are hashed first, shorter ones are filled up with zeros.
-/

namespace LiveIngest.Hmac

/-- The key as one block of 64 bytes. -/
def keyBlock (key : List UInt8) : List UInt8 :=
  let short := if key.length > 64 then Sha256.hash key else key
  short ++ List.replicate (64 - short.length) 0

/-- The authentication code of a message under a key. -/
def sha256 (key message : List UInt8) : List UInt8 :=
  let block := keyBlock key
  let inner := Sha256.hash (block.map (· ^^^ 0x36) ++ message)
  Sha256.hash (block.map (· ^^^ 0x5c) ++ inner)

@[simp] theorem length_sha256 (key message : List UInt8) : (sha256 key message).length = 32 := rfl

end LiveIngest.Hmac
