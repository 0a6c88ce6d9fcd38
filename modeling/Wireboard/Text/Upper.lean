/-!
# Capital letters

The capital form of a text, character by character.  Most small letters have one capital letter at
a fixed distance, for whole runs of letters at once; a few turn into two or three characters.
-/

namespace Wireboard.Text

/-- A run of letters whose capitals lie at one distance. -/
structure CaseRun where
  first : Nat
  count : Nat
  step : Nat
  distance : Int
deriving DecidableEq, Repr

/-- The letters with one capital letter that are a run of their own, with the distances. -/
def loneLetters : List (Nat × Int) := [
  (0xb5, 743), (0xff, 121), (0x131, -232), (0x17f, -300), (0x180, 195), (0x188, -1), (0x18c, -1),
  (0x192, -1), (0x195, 97), (0x199, -1), (0x19a, 163), (0x19e, 130), (0x1a8, -1), (0x1ad, -1),
  (0x1b0, -1), (0x1b9, -1), (0x1bd, -1), (0x1bf, 56), (0x1c5, -1), (0x1c6, -2), (0x1c8, -1),
  (0x1c9, -2), (0x1cb, -1), (0x1cc, -2), (0x1dd, -79), (0x1f2, -1), (0x1f3, -2), (0x1f5, -1),
  (0x23c, -1), (0x242, -1), (0x250, 10783), (0x251, 10780), (0x252, 10782), (0x253, -210),
  (0x254, -206), (0x259, -202), (0x25b, -203), (0x25c, 42319), (0x260, -205), (0x261, 42315),
  (0x263, -207), (0x265, 42280), (0x266, 42308), (0x268, -209), (0x269, -211), (0x26a, 42308),
  (0x26b, 10743), (0x26c, 42305), (0x26f, -211), (0x271, 10749), (0x272, -213), (0x275, -214),
  (0x27d, 10727), (0x280, -218), (0x282, 42307), (0x283, -218), (0x287, 42282), (0x288, -218),
  (0x289, -69), (0x28c, -71), (0x292, -219), (0x29d, 42261), (0x29e, 42258), (0x345, 84),
  (0x377, -1), (0x3ac, -38), (0x3c2, -31), (0x3cc, -64), (0x3d0, -62), (0x3d1, -57), (0x3d5, -47),
  (0x3d6, -54), (0x3d7, -8), (0x3f0, -86), (0x3f1, -80), (0x3f2, 7), (0x3f3, -116), (0x3f5, -96),
  (0x3f8, -1), (0x3fb, -1), (0x4cf, -15), (0x1c80, -6254), (0x1c81, -6253), (0x1c82, -6244),
  (0x1c85, -6243), (0x1c86, -6236), (0x1c87, -6181), (0x1c88, 35266), (0x1d79, 35332),
  (0x1d7d, 3814), (0x1d8e, 35384), (0x1e9b, -59), (0x1fbe, -7205), (0x1fe5, 7), (0x214e, -28),
  (0x2184, -1), (0x2c61, -1), (0x2c65, -10795), (0x2c66, -10792), (0x2c73, -1), (0x2c76, -1),
  (0x2cf3, -1), (0x2d27, -7264), (0x2d2d, -7264), (0xa78c, -1), (0xa794, 48), (0xa7d1, -1),
  (0xa7f6, -1), (0xab53, -928)]

def caseRuns : List CaseRun := loneLetters.map (fun e => ⟨e.1, 1, 1, e.2⟩) ++ [
  ⟨0x61, 26, 1, -32⟩, ⟨0xe0, 23, 1, -32⟩, ⟨0xf8, 7, 1, -32⟩, ⟨0x101, 24, 2, -1⟩, ⟨0x133, 3, 2, -1⟩,
  ⟨0x13a, 8, 2, -1⟩, ⟨0x14b, 23, 2, -1⟩, ⟨0x17a, 3, 2, -1⟩, ⟨0x183, 2, 2, -1⟩, ⟨0x1a1, 3, 2, -1⟩,
  ⟨0x1b4, 2, 2, -1⟩, ⟨0x1ce, 8, 2, -1⟩, ⟨0x1df, 9, 2, -1⟩, ⟨0x1f9, 20, 2, -1⟩, ⟨0x223, 9, 2, -1⟩,
  ⟨0x23f, 2, 1, 10815⟩, ⟨0x247, 5, 2, -1⟩, ⟨0x256, 2, 1, -205⟩, ⟨0x28a, 2, 1, -217⟩,
  ⟨0x371, 2, 2, -1⟩, ⟨0x37b, 3, 1, 130⟩, ⟨0x3ad, 3, 1, -37⟩, ⟨0x3b1, 17, 1, -32⟩,
  ⟨0x3c3, 9, 1, -32⟩, ⟨0x3cd, 2, 1, -63⟩, ⟨0x3d9, 12, 2, -1⟩, ⟨0x430, 32, 1, -32⟩,
  ⟨0x450, 16, 1, -80⟩, ⟨0x461, 17, 2, -1⟩, ⟨0x48b, 27, 2, -1⟩, ⟨0x4c2, 7, 2, -1⟩,
  ⟨0x4d1, 48, 2, -1⟩, ⟨0x561, 38, 1, -48⟩, ⟨0x10d0, 43, 1, 3008⟩, ⟨0x10fd, 3, 1, 3008⟩,
  ⟨0x13f8, 6, 1, -8⟩, ⟨0x1c83, 2, 1, -6242⟩, ⟨0x1e01, 75, 2, -1⟩, ⟨0x1ea1, 48, 2, -1⟩,
  ⟨0x1f00, 8, 1, 8⟩, ⟨0x1f10, 6, 1, 8⟩, ⟨0x1f20, 8, 1, 8⟩, ⟨0x1f30, 8, 1, 8⟩, ⟨0x1f40, 6, 1, 8⟩,
  ⟨0x1f51, 4, 2, 8⟩, ⟨0x1f60, 8, 1, 8⟩, ⟨0x1f70, 2, 1, 74⟩, ⟨0x1f72, 4, 1, 86⟩, ⟨0x1f76, 2, 1, 100⟩,
  ⟨0x1f78, 2, 1, 128⟩, ⟨0x1f7a, 2, 1, 112⟩, ⟨0x1f7c, 2, 1, 126⟩, ⟨0x1fb0, 2, 1, 8⟩,
  ⟨0x1fd0, 2, 1, 8⟩, ⟨0x1fe0, 2, 1, 8⟩, ⟨0x2170, 16, 1, -16⟩, ⟨0x24d0, 26, 1, -26⟩,
  ⟨0x2c30, 48, 1, -48⟩, ⟨0x2c68, 3, 2, -1⟩, ⟨0x2c81, 50, 2, -1⟩, ⟨0x2cec, 2, 2, -1⟩,
  ⟨0x2d00, 38, 1, -7264⟩, ⟨0xa641, 23, 2, -1⟩, ⟨0xa681, 14, 2, -1⟩, ⟨0xa723, 7, 2, -1⟩,
  ⟨0xa733, 31, 2, -1⟩, ⟨0xa77a, 2, 2, -1⟩, ⟨0xa77f, 5, 2, -1⟩, ⟨0xa791, 2, 2, -1⟩,
  ⟨0xa797, 10, 2, -1⟩, ⟨0xa7b5, 8, 2, -1⟩, ⟨0xa7c8, 2, 2, -1⟩, ⟨0xa7d7, 2, 2, -1⟩,
  ⟨0xab70, 80, 1, -38864⟩, ⟨0xff41, 26, 1, -32⟩, ⟨0x10428, 40, 1, -40⟩, ⟨0x104d8, 36, 1, -40⟩,
  ⟨0x10597, 11, 1, -39⟩, ⟨0x105a3, 15, 1, -39⟩, ⟨0x105b3, 7, 1, -39⟩, ⟨0x105bb, 2, 1, -39⟩,
  ⟨0x10cc0, 51, 1, -64⟩, ⟨0x118c0, 32, 1, -32⟩, ⟨0x16e60, 32, 1, -32⟩, ⟨0x1e922, 34, 1, -34⟩]

/-- The letters whose capital form is a capital letter and an iota. -/
def iotaRuns : List CaseRun := [
  ⟨0x1f80, 8, 1, -120⟩, ⟨0x1f88, 8, 1, -128⟩, ⟨0x1f90, 8, 1, -104⟩, ⟨0x1f98, 8, 1, -112⟩,
  ⟨0x1fa0, 8, 1, -56⟩, ⟨0x1fa8, 8, 1, -64⟩]

/-- The letters whose capital form has several characters. -/
def caseExpansions : List (Nat × List Nat) :=
  (iotaRuns.flatMap fun r => (List.range r.count).map fun i =>
    (r.first + i, [(((r.first + i : Nat) : Int) + r.distance).toNat, 0x399])) ++ [
  (0xdf, [0x53, 0x53]), (0x149, [0x2bc, 0x4e]), (0x1f0, [0x4a, 0x30c]),
  (0x390, [0x399, 0x308, 0x301]), (0x3b0, [0x3a5, 0x308, 0x301]), (0x587, [0x535, 0x552]),
  (0x1e96, [0x48, 0x331]), (0x1e97, [0x54, 0x308]), (0x1e98, [0x57, 0x30a]),
  (0x1e99, [0x59, 0x30a]), (0x1e9a, [0x41, 0x2be]), (0x1f50, [0x3a5, 0x313]),
  (0x1f52, [0x3a5, 0x313, 0x300]), (0x1f54, [0x3a5, 0x313, 0x301]), (0x1f56, [0x3a5, 0x313, 0x342]),
  (0x1fb2, [0x1fba, 0x399]), (0x1fb3, [0x391, 0x399]), (0x1fb4, [0x386, 0x399]),
  (0x1fb6, [0x391, 0x342]), (0x1fb7, [0x391, 0x342, 0x399]), (0x1fbc, [0x391, 0x399]),
  (0x1fc2, [0x1fca, 0x399]), (0x1fc3, [0x397, 0x399]), (0x1fc4, [0x389, 0x399]),
  (0x1fc6, [0x397, 0x342]), (0x1fc7, [0x397, 0x342, 0x399]), (0x1fcc, [0x397, 0x399]),
  (0x1fd2, [0x399, 0x308, 0x300]), (0x1fd3, [0x399, 0x308, 0x301]), (0x1fd6, [0x399, 0x342]),
  (0x1fd7, [0x399, 0x308, 0x342]), (0x1fe2, [0x3a5, 0x308, 0x300]), (0x1fe3, [0x3a5, 0x308, 0x301]),
  (0x1fe4, [0x3a1, 0x313]), (0x1fe6, [0x3a5, 0x342]), (0x1fe7, [0x3a5, 0x308, 0x342]),
  (0x1ff2, [0x1ffa, 0x399]), (0x1ff3, [0x3a9, 0x399]), (0x1ff4, [0x38f, 0x399]),
  (0x1ff6, [0x3a9, 0x342]), (0x1ff7, [0x3a9, 0x342, 0x399]), (0x1ffc, [0x3a9, 0x399]),
  (0xfb00, [0x46, 0x46]), (0xfb01, [0x46, 0x49]), (0xfb02, [0x46, 0x4c]),
  (0xfb03, [0x46, 0x46, 0x49]), (0xfb04, [0x46, 0x46, 0x4c]), (0xfb05, [0x53, 0x54]),
  (0xfb06, [0x53, 0x54]), (0xfb13, [0x544, 0x546]), (0xfb14, [0x544, 0x535]),
  (0xfb15, [0x544, 0x53b]), (0xfb16, [0x54e, 0x546]), (0xfb17, [0x544, 0x53d])]

def CaseRun.has (r : CaseRun) (code : Nat) : Bool :=
  decide (r.first ≤ code) && decide (code < r.first + r.count * r.step)
    && (code - r.first) % r.step == 0

/-- The capital form of a character. -/
def upperChar (c : Char) : List Char :=
  match caseRuns.find? (·.has c.toNat) with
  | some r => [Char.ofNat ((c.toNat : Int) + r.distance).toNat]
  | none =>
    match caseExpansions.find? (·.1 == c.toNat) with
    | some e => e.2.map Char.ofNat
    | none => [c]

/-- The capital form of a text. -/
def upper (s : String) : String := String.ofList (s.toList.flatMap upperChar)

end Wireboard.Text
