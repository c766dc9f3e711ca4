import CppGraduate.Lib.Heap
import CppGraduate.Lib.Circular
import CppGraduate.LruInC.List
import CppGraduate.LruInC.HashMap
import CppGraduate.Lib.Lru
import CppGraduate.LruInC.Lru
import CppGraduate.LruInC.Refinement
import CppGraduate.LruInC.Contract
import CppGraduate.LruInC.Main
import CppGraduate.LruInC.Inclusion
import CppGraduate.LruInC.Tokens
import CppGraduate.LruInC.Program
import CppGraduate.Lib.Chains
import CppGraduate.LruDatastructs.Pool
import CppGraduate.LruDatastructs.List
import CppGraduate.LruDatastructs.IntMap
import CppGraduate.LruDatastructs.Lru
import CppGraduate.LruDatastructs.Refinement
import CppGraduate.LruNaive.Main
import CppGraduate.LruNaive.Refinement
import CppGraduate.Lib.StdList
import CppGraduate.LruInCxx.Cache
import CppGraduate.LruInCxx.Refinement
import CppGraduate.Lib.CxxInt
import CppGraduate.Lib.Cycles
import CppGraduate.Permutations.Idom
import CppGraduate.Permutations.PermLoops
import CppGraduate.Permutations.CreateLoops
import CppGraduate.Permutations.Perms
import CppGraduate.Permutations.Contract
import CppGraduate.Permutations.NormalForm
import CppGraduate.Permutations.Tables
import CppGraduate.Permutations.Identity
import CppGraduate.Lib.SizeFirst
import CppGraduate.Permutations.Order
import CppGraduate.Lib.Closure
import CppGraduate.Permutations.Groups
import CppGraduate.Permutations.ArrayLoops
import CppGraduate.Lib.Ir
import CppGraduate.ParaCL.Syntax
import CppGraduate.ParaCL.Nodes
import CppGraduate.ParaCL.Runs
import CppGraduate.ParaCL.Codegen
import CppGraduate.ParaCL.Parser
import CppGraduate.ParaCL.Trees
import CppGraduate.ParaCL.Resolution
import CppGraduate.Lib.Scopes
import CppGraduate.ParaCL.Scoping
import CppGraduate.ParaCL.Meaning
import CppGraduate.ParaCL.Interpreter
import CppGraduate.ParaCL.Emission
import CppGraduate.ParaCL.Conditions
import CppGraduate.ParaCL.Regular
import CppGraduate.ParaCL.Sublanguage
import CppGraduate.ParaCL.Simulation
import CppGraduate.ParaCL.Compiler
import CppGraduate.ParaCL.InputEnd
import CppGraduate.Lib.ControlFlow
import CppGraduate.ParaCL.ControlFlow
import CppGraduate.Lib.Throwing
import CppGraduate.MyVecDemo.MyVec2
import CppGraduate.MyVecDemo.Representation
import CppGraduate.Lib.Storage
import CppGraduate.MyVecDemo.MyVec3
import CppGraduate.MyVecDemo.Contents
import CppGraduate.MyVecDemo.Strong
import CppGraduate.MyVecDemo.MyVec4
import CppGraduate.MyVecDemo.Moving
import CppGraduate.Lib.Reading
import CppGraduate.SimplestArith.Grammars
import CppGraduate.SimplestArith.Agreement
import CppGraduate.NumGrammar.Grammars
import CppGraduate.NumGrammar.Equations
import CppGraduate.NumGrammar.Agreement
import CppGraduate.Lib.WorkItems
import CppGraduate.Lib.Loops
import CppGraduate.Compute.GemmKernels
import CppGraduate.Compute.GemmEntries
import CppGraduate.Compute.GemmSimple
import CppGraduate.Compute.GemmLocalmem
import CppGraduate.Compute.GemmSchedules
import CppGraduate.Compute.Host
import CppGraduate.Compute.Gemm
import CppGraduate.Compute.HistKernels
import CppGraduate.Compute.Strides
import CppGraduate.Compute.HistCounting
import CppGraduate.Compute.HistLocal
import CppGraduate.Compute.HistSchedules
import CppGraduate.Compute.Hist
import CppGraduate.Lib.SpanningTree
import CppGraduate.Prim.Prim
import CppGraduate.Prim.Optimality
import CppGraduate.Containers.Vector
import CppGraduate.Containers.Guarantee
import CppGraduate.Iterators.MatrixRepro
import CppGraduate.Lib.SternBrocot
import CppGraduate.Sbt.ContFrac
import CppGraduate.Sbt.Tree
import CppGraduate.Algorithms.Repose
import CppGraduate.Sfinae.BenchCopy
import CppGraduate.Iterators.ZipRange
import CppGraduate.Triangles.Polygon
import CppGraduate.Prim.Rooted
import CppGraduate.LruInC.ReadInteger
import CppGraduate.LruInC.HashMapPointers
import CppGraduate.LruDatastructs.IntMapRuns
import CppGraduate.Containers.OwnElement
import CppGraduate.Compute.GemmReferences
import CppGraduate.Constexpr.Isqrt
import CppGraduate.ParaCL.Objects
import CppGraduate.ParaCL.OperandOrder
import CppGraduate.ParaCL.Divisions
import CppGraduate.ParaCL.Ownership
import CppGraduate.ParaCL.Release
import CppGraduate.LruInC.ListRuns
import CppGraduate.Containers.Capacity
