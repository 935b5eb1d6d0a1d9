import GoodGoodStudy.Lru.Refine
import GoodGoodStudy.Dali.Http.Multipart
import GoodGoodStudy.Dali.Http.Session
import GoodGoodStudy.Dali.Cache.Provenance
import GoodGoodStudy.Dali.Cache.File
import GoodGoodStudy.Dali.Handlers.StaticFile
import GoodGoodStudy.Dali.Cache.Page
import GoodGoodStudy.HttpServer.MessageParser
import GoodGoodStudy.Kafka.OneToMany
import GoodGoodStudy.Confound.StringArray
import GoodGoodStudy.Confound.Flatten
import GoodGoodStudy.Confound.AccessMode
import GoodGoodStudy.LeetCode.Codec
import GoodGoodStudy.LeetCode.Bst
import GoodGoodStudy.LeetCode.Heap
import GoodGoodStudy.LeetCode.UnionFind
import GoodGoodStudy.LeetCode.Trie
import GoodGoodStudy.LeetCode.BloomFilter
import GoodGoodStudy.LeetCode.MinStack
import GoodGoodStudy.LeetCode.MaxQueue
import GoodGoodStudy.LeetCode.Difference
import GoodGoodStudy.DesignPattern.Mario
import GoodGoodStudy.Thread.Account
import GoodGoodStudy.Internet.MultiThreadDown
import GoodGoodStudy.LeetCode.SurroundedUnion
import GoodGoodStudy.LeetCode.WordTrie
import GoodGoodStudy.LeetCode.WordExist
import GoodGoodStudy.LeetCode.NQueens
import GoodGoodStudy.LeetCode.Sudoku
import GoodGoodStudy.LeetCode.BuildTree
import GoodGoodStudy.LeetCode.DetectCycle
import GoodGoodStudy.LeetCode.Intersection
import GoodGoodStudy.LeetCode.Spiral
import GoodGoodStudy.LeetCode.ReverseKGroup
import GoodGoodStudy.LeetCode.CopyRandomList
import GoodGoodStudy.LeetCode.IsValidBst
import GoodGoodStudy.LeetCode.KthLargest
import GoodGoodStudy.LeetCode.HasPathSum
import GoodGoodStudy.LeetCode.Package
import GoodGoodStudy.LeetCode.FindMaxForm
import GoodGoodStudy.LeetCode.MaxProfit
import GoodGoodStudy.LeetCode.FindAnagrams
import GoodGoodStudy.LeetCode.Islands
import GoodGoodStudy.LeetCode.LadderLength
import GoodGoodStudy.LeetCode.StackTraversal
import GoodGoodStudy.LeetCode.Atoi
import GoodGoodStudy.LeetCode.LongestPalindrome
import GoodGoodStudy.LeetCode.Permutations
import GoodGoodStudy.LeetCode.GenerateParenthesis
import GoodGoodStudy.LeetCode.DeleteNode
import GoodGoodStudy.LeetCode.QuickSort
import GoodGoodStudy.LeetCode.FindKth
import GoodGoodStudy.LeetCode.FindKthLargest
import GoodGoodStudy.LeetCode.HeapSort
import GoodGoodStudy.LeetCode.MergeSort
import GoodGoodStudy.LeetCode.BubbleSort
import GoodGoodStudy.LeetCode.Sort
import GoodGoodStudy.LeetCode.ReversePairs
import GoodGoodStudy.LeetCode.SuperEggDrop
import GoodGoodStudy.LeetCode.LengthOfLis
import GoodGoodStudy.LeetCode.LongestValidParentheses
import GoodGoodStudy.LeetCode.MinRemoveToMakeValid
import GoodGoodStudy.LeetCode.LargestRectangle
import GoodGoodStudy.LeetCode.RecoverTree
import GoodGoodStudy.LeetCode.MovingCount
import GoodGoodStudy.LeetCode.MinWindow
import GoodGoodStudy.LeetCode.MaxSlidingWindow
import GoodGoodStudy.LeetCode.Candy
import GoodGoodStudy.LeetCode.CanCompleteCircuit
import GoodGoodStudy.LeetCode.ReconstructQueue
import GoodGoodStudy.LeetCode.Trap
import GoodGoodStudy.LeetCode.SearchRotated
import GoodGoodStudy.LeetCode.Divide
import GoodGoodStudy.LeetCode.WordBreak
import GoodGoodStudy.LeetCode.SingleNumber
import GoodGoodStudy.LeetCode.NextPermutation
import GoodGoodStudy.LeetCode.UniquePaths
import GoodGoodStudy.LeetCode.StoneGame
import GoodGoodStudy.LeetCode.FourSum
import GoodGoodStudy.LeetCode.ThreeSum
import GoodGoodStudy.LeetCode.LowestCommonAncestor
import GoodGoodStudy.LeetCode.MinDistance
import GoodGoodStudy.LeetCode.MonotoneDigits
import GoodGoodStudy.LeetCode.GameOfLife
import GoodGoodStudy.LeetCode.UglyNumber
import GoodGoodStudy.LeetCode.FirstMissing
import GoodGoodStudy.LeetCode.IsHappy
import GoodGoodStudy.LeetCode.ReverseFirst
import GoodGoodStudy.Confound.NumericEncrypt
import GoodGoodStudy.Confound.Identifier
import GoodGoodStudy.Aio.Future
import GoodGoodStudy.Confound.RenameIdentifier
import GoodGoodStudy.Confound.Unflatten
import GoodGoodStudy.Dali.App
import GoodGoodStudy.Dali.Controllers.Default
import GoodGoodStudy.Lib.Ballot
import GoodGoodStudy.Lib.Buckets
import GoodGoodStudy.Lib.Cursor
import GoodGoodStudy.Lib.Semaphore
import GoodGoodStudy.Net.ChatServer
import GoodGoodStudy.Net.EchoServer
import GoodGoodStudy.ProxyPool.Pool
import GoodGoodStudy.Redis.Backlog
import GoodGoodStudy.Redis.Dict
import GoodGoodStudy.Redis.DictMap
import GoodGoodStudy.Redis.Psync
import GoodGoodStudy.Redis.PsyncRun
import GoodGoodStudy.Redis.Scan
import GoodGoodStudy.Redis.Sentinel
import GoodGoodStudy.Redis.SentinelSafe
import GoodGoodStudy.Thread.ReadAccu
