import RegCode.Text.Utf8

/-! The BLAKE2b hash with a digest of 32 bytes and no key. -/
namespace RegCode.Digest

open Text (Bytes)

abbrev Chain := Vector UInt64 8

abbrev Words := Vector UInt64 16

def initial : Chain :=
  #v[0x6a09e667f3bcc908, 0xbb67ae8584caa73b, 0x3c6ef372fe94f82b, 0xa54ff53a5f1d36f1,
    0x510e527fade682d1, 0x9b05688c2b3e6c1f, 0x1f83d9abfb41bd6b, 0x5be0cd19137e2179]

def schedule : List (Vector (Fin 16) 16) :=
  let rows : List (Vector (Fin 16) 16) :=
    [#v[0, 1, 2, 3, 4, 5, 6, 7, 8, 9, 10, 11, 12, 13, 14, 15],
      #v[14, 10, 4, 8, 9, 15, 13, 6, 1, 12, 0, 2, 11, 7, 5, 3],
      #v[11, 8, 12, 0, 5, 2, 15, 13, 10, 14, 3, 6, 7, 1, 9, 4],
      #v[7, 9, 3, 1, 13, 12, 11, 14, 2, 6, 5, 10, 4, 0, 15, 8],
      #v[9, 0, 5, 7, 2, 4, 10, 15, 14, 1, 11, 12, 6, 8, 3, 13],
      #v[2, 12, 6, 10, 0, 11, 8, 3, 4, 13, 7, 5, 15, 14, 1, 9],
      #v[12, 5, 1, 15, 14, 13, 4, 10, 0, 7, 6, 3, 9, 2, 8, 11],
      #v[13, 11, 7, 14, 12, 1, 3, 9, 5, 0, 15, 4, 8, 6, 2, 10],
      #v[6, 15, 14, 9, 11, 3, 0, 8, 12, 2, 13, 7, 1, 4, 10, 5],
      #v[10, 2, 8, 4, 7, 6, 1, 5, 15, 11, 9, 14, 3, 12, 13, 0]]
  rows ++ rows.take 2

def rotateRight (x : UInt64) (n : UInt64) : UInt64 := (x >>> n) ||| (x <<< (64 - n))

def mix (v : Words) (a b c d : Fin 16) (x y : UInt64) : Words :=
  let v := v.set a (v.get a + v.get b + x)
  let v := v.set d (rotateRight (v.get d ^^^ v.get a) 32)
  let v := v.set c (v.get c + v.get d)
  let v := v.set b (rotateRight (v.get b ^^^ v.get c) 24)
  let v := v.set a (v.get a + v.get b + y)
  let v := v.set d (rotateRight (v.get d ^^^ v.get a) 16)
  let v := v.set c (v.get c + v.get d)
  v.set b (rotateRight (v.get b ^^^ v.get c) 63)

def round (m : Words) (v : Words) (s : Vector (Fin 16) 16) : Words :=
  let w (i : Fin 16) : UInt64 := m.get (s.get i)
  let v := mix v 0 4 8 12 (w 0) (w 1)
  let v := mix v 1 5 9 13 (w 2) (w 3)
  let v := mix v 2 6 10 14 (w 4) (w 5)
  let v := mix v 3 7 11 15 (w 6) (w 7)
  let v := mix v 0 5 10 15 (w 8) (w 9)
  let v := mix v 1 6 11 12 (w 10) (w 11)
  let v := mix v 2 7 8 13 (w 12) (w 13)
  mix v 3 4 9 14 (w 14) (w 15)

def littleEndian (bs : Bytes) : UInt64 :=
  bs.foldr (fun b acc => (acc <<< 8) ||| b.toUInt64) 0

def wordsOf (block : Bytes) : Words :=
  Vector.ofFn fun i => littleEndian ((block.drop (8 * i.val)).take 8)

def compress (h : Chain) (block : Bytes) (count : Nat) (last : Bool) : Chain :=
  let v : Words := h ++ initial
  let v := v.set 12 (v.get 12 ^^^ count.toUInt64)
  let v := v.set 13 (v.get 13 ^^^ (count / 18446744073709551616).toUInt64)
  let v := if last then v.set 14 (v.get 14 ^^^ 0xffffffffffffffff) else v
  let v := schedule.foldl (round (wordsOf block)) v
  Vector.ofFn fun i => h.get i ^^^ v.get (i.castLE (by decide)) ^^^ v.get (i.natAdd 8)

def absorb (h : Chain) (count : Nat) : Nat → Bytes → Chain
  | 0, bs => compress h bs (count + bs.length) true
  | fuel + 1, bs =>
    if bs.length ≤ 128 then compress h bs (count + bs.length) true
    else absorb (compress h (bs.take 128) (count + 128) false) (count + 128) fuel (bs.drop 128)

def bytesOfWord (w : UInt64) : Bytes := (List.range 8).map fun i => (w >>> (8 * i).toUInt64).toUInt8

def blake2b (bs : Bytes) : Bytes :=
  let start := initial.set 0 (initial.get 0 ^^^ 0x01010020)
  ((absorb start 0 bs.length bs).toList.flatMap bytesOfWord).take 32

end RegCode.Digest
